import CallFold.Proofs.ArrayAnalysis
import CallFold.Proofs.Chains

/-!
# Escapes

Two searches decide whether an array escapes: one along copies, for the places that may hold a
reference to it, and one against the control flow, for the instructions from which the call can be
reached. Here both are said without a search, as paths of copies (`FrameGraph.MayComeFrom`) and
paths of control (`MethodBody.Flow`), and so is the answer (`Scope.escapes_eq_false_iff`).
-/

namespace CallFold

/-! ## Searching and listing -/

theorem capacity_search (next : Nat → List Nat) (marked : BitSet) (pending : List Nat) :
    (search next marked pending).capacity = marked.capacity := by
  fun_induction search next marked pending with
  | case1 => rfl
  | case2 marked i rest marked' hinsert ih =>
    rw [ih, show marked' = (marked.insert i).2 by rw [hinsert], BitSet.capacity_insert]
  | case3 _ _ _ _ _ ih => exact ih

/-- What is below the bound is listed by a search exactly if it can be reached. -/
theorem mem_toList_reachable_iff {bound : Nat} {next : Nat → List Nat} {roots : List Nat} {i : Nat}
    (hlt : i < bound) :
    i ∈ (reachable bound next roots).toList ↔ Reaches bound next roots i := by
  rw [← contains_reachable_iff]
  refine ⟨fun h => BitSet.contains_of_mem_toList h ?_, BitSet.mem_toList_of_contains⟩
  rw [reachable, capacity_search]
  exact hlt

/-- Where edges start below the bound, reaching something below it is following edges. -/
theorem reaches_iff_exists_path {bound : Nat} {next : Nat → List Nat} {roots : List Nat} {j : Nat}
    (hnext : ∀ i j, j ∈ next i → i < bound) (hlt : j < bound) :
    Reaches bound next roots j ↔
      ∃ r ∈ roots, Relation.ReflTransGen (fun i j => j ∈ next i) r j := by
  constructor
  · intro h
    induction h with
    | root h _ => exact ⟨_, h, .refl⟩
    | @edge i j _ hj _ ih =>
      obtain ⟨r, hr, hpath⟩ := ih (hnext i j hj)
      exact ⟨r, hr, hpath.tail hj⟩
  · rintro ⟨r, hr, hpath⟩
    induction hpath with
    | refl => exact .root hr hlt
    | @tail i j _ hj ih => exact .edge (ih (hnext i j hj)) hj hlt

/-! ## Copies -/

/-- The places from which an instruction may hand a value on. -/
def Instruction.copiedPlaces : Instruction → List Place
  | .load slot => [.slot slot]
  | .store _ | .dup | .checkCast _ => [.stack 0]
  | .dupX1 | .swap => [.stack 0, .stack 1]
  | _ => []

namespace FrameGraph

variable {g : FrameGraph} {set : IndexSet} {p q a : Nat}

/-- A reachable instruction may hand on what another one produced. -/
def CopyEdge (g : FrameGraph) (p q : Nat) : Prop :=
  ∃ i f place set, g.node? p = some (i, f) ∧ place ∈ i.copiedPlaces ∧
    f.view.get? place = some set ∧ q ∈ set

/-- A path of copies leads from a producer of a value to an instruction. -/
def MayComeFrom (g : FrameGraph) (set : IndexSet) (a : Nat) : Prop :=
  ∃ p, p ∈ set ∧ Relation.ReflTransGen g.CopyEdge p a

theorem mem_copiedSlots_iff {i : Instruction} {f : Frame} :
    set ∈ copiedSlots i f ↔ ∃ place ∈ i.copiedPlaces, f.view.get? place = some set := by
  cases i <;>
    simp [copiedSlots, copiedSlot?, Instruction.copiedPlaces, Slots.get?, Frame.view, Frame.slot?,
      Frame.top?, Frame.peek?]

theorem mem_copySources_iff : q ∈ g.copySources p ↔ g.CopyEdge p q := by
  unfold copySources
  constructor
  · intro h
    split at h
    · next i f hnode =>
      obtain ⟨set, hset, hq⟩ := List.mem_flatMap.mp h
      obtain ⟨place, hplace, hget⟩ := mem_copiedSlots_iff.mp hset
      exact ⟨i, f, place, set, hnode, hplace, hget, hq⟩
    · simp at h
  · rintro ⟨i, f, place, set, hnode, hplace, hget, hq⟩
    simp only [hnode]
    exact List.mem_flatMap.mpr ⟨set, mem_copiedSlots_iff.mpr ⟨place, hplace, hget⟩, hq⟩

/-- A value may be a reference to an allocation exactly if a path of copies leads there. -/
theorem mayAlias_iff (ha : a < g.length) : g.mayAlias set a = true ↔ g.MayComeFrom set a := by
  have hnext : ∀ i j, j ∈ g.copySources i → i < g.length := by
    intro i j hj
    obtain ⟨_, _, _, _, hnode, -⟩ := mem_copySources_iff.mp hj
    exact lt_length_of_node hnode
  rw [mayAlias, contains_reachable_iff, reaches_iff_exists_path hnext ha]
  simp only [mem_copySources_iff]
  rfl

end FrameGraph

/-! ## Control flow -/

/-- Control can come to an instruction and go on to another one from there. -/
def MethodBody.Flow (m : MethodBody) (i j : Nat) : Prop :=
  (∃ trail, m.Path trail i) ∧ m.Edge i j

namespace FrameGraph

variable {g : FrameGraph} {i j site : Nat}

theorem Solved.mem_successors_iff_flow (hg : g.Solved) :
    j ∈ g.successors i ↔ g.body.Flow i j := by
  unfold MethodBody.Flow
  rw [← hg.isSome_frame?_iff]
  constructor
  · intro h
    obtain ⟨f, hf⟩ := hg.frame?_of_mem_successors h
    exact ⟨by simp [hf], (hg.mem_successors_iff hf).mp h⟩
  · rintro ⟨hsome, hedge⟩
    obtain ⟨f, hf⟩ := Option.isSome_iff_exists.mp hsome
    exact (hg.mem_successors_iff hf).mpr hedge

/-- A search against the control flow finds the instructions from which control can come. -/
theorem Solved.reaches_predecessors_iff (hg : g.Solved) (hj : j < g.length) :
    Reaches g.length g.predecessors [site] j ↔ Relation.ReflTransGen g.body.Flow j site := by
  have hnext : ∀ i j, j ∈ g.predecessors i → i < g.length := by
    intro i j h
    obtain ⟨f, hf⟩ := hg.frame?_of_edge ((hg.predecessors _ _).mp h)
    exact lt_length_of_frame hf
  rw [reaches_iff_exists_path hnext hj, ← Relation.reflTransGen_swap]
  simp only [hg.predecessors, hg.mem_successors_iff_flow, List.mem_singleton, exists_eq_left]

end FrameGraph

/-! ## Escapes -/

/-- Whether an instruction puts the top of the stack where it can be found again. -/
def Instruction.putsAway : Instruction → Bool
  | .putField _ | .putStatic _ | .arrayStore => true
  | _ => false

namespace Scope

variable {s : Scope} {o : ArrayOrigin} {chain : List Nat} {a j site : Nat}

/--
An instruction lets an array escape: what may be a reference to it is put away, stored to a local
slot off the chain from the call back to the allocation, or passed to a call that is not safe.
-/
inductive LetsEscape (s : Scope) (chain : List Nat) (a j : Nat) : Prop where
  | put {i : Instruction} {f : Frame} {set : IndexSet} (hnode : s.graph.node? j = some (i, f))
      (hputs : i.putsAway = true) (hset : f.view.get? (.stack 0) = some set)
      (hmay : s.graph.MayComeFrom set a)
  | store {slot : Nat} {f : Frame} {set : IndexSet}
      (hnode : s.graph.node? j = some (.store slot, f)) (hoff : j ∉ chain)
      (hset : f.view.get? (.stack 0) = some set) (hmay : s.graph.MayComeFrom set a)
  | pass {callee : MethodRef} {f : Frame} {set : IndexSet} {below : Nat}
      (hnode : s.graph.node? j = some (.invoke callee, f))
      (hrisky : s.safeCalls.contains callee.signature = false)
      (hbelow : below < callee.argumentSlots) (hset : f.view.get? (.stack below) = some set)
      (hmay : s.graph.MayComeFrom set a)

theorem LetsEscape.lt_length (h : s.LetsEscape chain a j) : j < s.graph.length := by
  cases h with
  | put hnode | store hnode | pass hnode => exact FrameGraph.lt_length_of_node hnode

theorem aliases_iff (ha : a < s.graph.length) {slot : Option IndexSet} :
    s.aliases a slot = true ↔ ∃ set, slot = some set ∧ s.graph.MayComeFrom set a := by
  cases slot <;> simp [aliases, FrameGraph.mayAlias_iff ha]

theorem any_arguments_iff (ha : a < s.graph.length) {f : Frame} {count : Nat} :
    ((f.arguments count).any fun set => s.graph.mayAlias set a) = true ↔
      ∃ below set, below < count ∧ f.view.get? (.stack below) = some set ∧
        s.graph.MayComeFrom set a := by
  simp only [List.any_eq_true, FrameGraph.mayAlias_iff ha, Frame.arguments, List.mem_reverse]
  constructor
  · rintro ⟨set, hmem, hmay⟩
    obtain ⟨below, hbelow⟩ := List.mem_iff_getElem?.mp hmem
    rw [List.getElem?_take] at hbelow
    split at hbelow
    · next hlt => exact ⟨below, set, hlt, hbelow, hmay⟩
    · simp at hbelow
  · rintro ⟨below, set, hlt, hget, hmay⟩
    refine ⟨set, List.mem_iff_getElem?.mpr ⟨below, ?_⟩, hmay⟩
    rw [List.getElem?_take, if_pos hlt]
    exact hget

/-- An instruction is judged to let an array escape exactly if it does. -/
theorem escapesAt_iff (hg : s.graph.Solved) (ha : o.allocation < s.graph.length)
    (hstores : ∀ j, s.graph.isStoreAt j = true → (j ∈ o.stores ↔ j ∈ chain)) :
    s.escapesAt o j = true ↔ s.LetsEscape chain o.allocation j := by
  unfold escapesAt
  constructor
  · intro h
    split at h
    · next hnode =>
      obtain ⟨set, hset, hmay⟩ := (aliases_iff ha).mp h
      exact .put hnode rfl hset hmay
    · next hnode =>
      obtain ⟨set, hset, hmay⟩ := (aliases_iff ha).mp h
      exact .put hnode rfl hset hmay
    · next hnode =>
      obtain ⟨set, hset, hmay⟩ := (aliases_iff ha).mp h
      exact .put hnode rfl hset hmay
    · next slot f hnode =>
      rw [Bool.and_eq_true, Bool.not_eq_true', ← Bool.not_eq_true, List.contains_iff_mem] at h
      obtain ⟨hoff, haliases⟩ := h
      obtain ⟨set, hset, hmay⟩ := (aliases_iff ha).mp haliases
      have hstore := (FrameGraph.isStoreAt_of_node hnode).mpr ⟨slot, rfl⟩
      exact .store hnode (fun hmem => hoff ((hstores j hstore).mpr hmem)) hset hmay
    · next callee f hnode =>
      rw [Bool.and_eq_true, Bool.and_eq_true, Bool.not_eq_true', any_arguments_iff ha] at h
      obtain ⟨⟨hrisky, -⟩, below, set, hbelow, hset, hmay⟩ := h
      exact .pass hnode hrisky hbelow hset hmay
    · simp at h
  · intro h
    cases h with
    | @put i f set hnode hputs hset hmay =>
      have haliases := (aliases_iff ha).mpr ⟨set, hset, hmay⟩
      cases i with
      | putField _ | putStatic _ | arrayStore =>
        simp only [hnode]
        exact haliases
      | _ => simp [Instruction.putsAway] at hputs
    | @store slot f set hnode hoff hset hmay =>
      have hstore := (FrameGraph.isStoreAt_of_node hnode).mpr ⟨slot, rfl⟩
      have haliases := (aliases_iff ha).mpr ⟨set, hset, hmay⟩
      simp only [hnode, Bool.and_eq_true, Bool.not_eq_true']
      rw [← Bool.not_eq_true, List.contains_iff_mem]
      exact ⟨fun hmem => hoff ((hstores j hstore).mp hmem), haliases⟩
    | @pass callee f set below hnode hrisky hbelow hset hmay =>
      obtain ⟨hi, hf⟩ := FrameGraph.node?_eq_some_iff.mp hnode
      have hdepth : callee.argumentSlots ≤ f.depth := (hg.accepts hf hi).depth
      simp only [hnode, Bool.and_eq_true, Bool.not_eq_true', any_arguments_iff ha,
        decide_eq_true_iff]
      exact ⟨⟨hrisky, hdepth⟩, below, set, hbelow, hset, hmay⟩

/-- No escape is found exactly if nothing from which control can come to the call is one. -/
theorem escapes_eq_false_iff (hg : s.graph.Solved) (ha : o.allocation < s.graph.length)
    (hstores : ∀ j, s.graph.isStoreAt j = true → (j ∈ o.stores ↔ j ∈ chain)) :
    s.escapes o site = false ↔ ∀ j, j ≠ site →
      Relation.ReflTransGen s.graph.body.Flow j site → ¬ s.LetsEscape chain o.allocation j := by
  unfold escapes
  rw [List.any_eq_false]
  constructor
  · intro h j hne hflow hescape
    have hlt := hescape.lt_length
    refine h j ((mem_toList_reachable_iff hlt).mpr ((hg.reaches_predecessors_iff hlt).mpr hflow)) ?_
    rw [Bool.and_eq_true, decide_eq_true_iff]
    exact ⟨hne, (escapesAt_iff hg ha hstores).mpr hescape⟩
  · intro h j hmem hcheck
    rw [Bool.and_eq_true, decide_eq_true_iff] at hcheck
    obtain ⟨hne, hescapes⟩ := hcheck
    have hescape := (escapesAt_iff hg ha hstores).mp hescapes
    have hlt := hescape.lt_length
    exact h j hne ((hg.reaches_predecessors_iff hlt).mp ((mem_toList_reachable_iff hlt).mp hmem))
      hescape

end Scope

end CallFold
