import CallFold.Proofs.ConstantArrays
import CallFold.Proofs.Escapes
import Mathlib

/-!
# When an array is found constant

The analysis of arrays traces, searches and scans. What it accepts can be said without any of this
(`Scope.ConstantArray`): a chain leads back to an allocation, nothing lets the array escape on the
way to the call, control has one way to go in the window, and the array stores of the window are in
bijection with the elements. `Scope.inferArray_eq_some_iff` says that these are exactly the arrays
that are found constant.
-/

namespace CallFold

theorem FrameGraph.AllocatesArray.lt_length {g : FrameGraph} {a length : Nat}
    (h : g.AllocatesArray a length) : a < g.length := by
  obtain ⟨_, _, _, hnode, -⟩ := h
  exact lt_length_of_node hnode

namespace Scope

variable {s : Scope} {k : ConstantKind} {o : ArrayOrigin} {f : Frame} {a i j site slot : Nat}
  {element : k.Value} {list : List k.Value} {reference position stored : IndexSet}

/-! ## Array stores -/

/-- A reachable array store, with the producers of the array, the position and the stored value. -/
def ArrayStoreAt (s : Scope) (j : Nat) (reference position stored : IndexSet) : Prop :=
  ∃ f, s.graph.node? j = some (.arrayStore, f) ∧ f.view.get? (.stack 2) = some reference ∧
    f.view.get? (.stack 1) = some position ∧ f.view.get? (.stack 0) = some stored

/-- An array store stores a constant to an element of the array that an allocation made. -/
def StoresElement (s : Scope) (k : ConstantKind) (a j slot : Nat) (element : k.Value) : Prop :=
  ∃ reference position stored, s.ArrayStoreAt j reference position stored ∧
    s.graph.MustComeFrom s.maxTraceDepth reference a ∧ s.graph.IsLiteral position slot ∧
    s.infer k stored = some element

/--
Enough is known of an array store: if it must store to the array, it stores a constant to one of its
elements, and if its target is unknown, that cannot be the array.
-/
structure Decided (s : Scope) (k : ConstantKind) (a length : Nat)
    (reference position stored : IndexSet) : Prop where
  known : s.graph.MustComeFrom s.maxTraceDepth reference a → ∃ slot element,
    s.graph.IsLiteral position slot ∧ slot < length ∧ s.infer k stored = some element
  unknown : (∀ b, ¬ s.graph.MustComeFrom s.maxTraceDepth reference b) →
    ¬ s.graph.MayComeFrom reference a

theorem decided_iff {length : Nat} : s.Decided k a length reference position stored ↔
    (s.graph.MustComeFrom s.maxTraceDepth reference a → ∃ slot element,
      s.graph.IsLiteral position slot ∧ slot < length ∧ s.infer k stored = some element) ∧
    ((∀ b, ¬ s.graph.MustComeFrom s.maxTraceDepth reference b) →
      ¬ s.graph.MayComeFrom reference a) :=
  ⟨fun h => ⟨h.known, h.unknown⟩, fun h => ⟨h.1, h.2⟩⟩

/-- A store spoils the window unless enough is known of it. -/
theorem storeEffect_ne_spoil_iff (ha : o.allocation < s.graph.length)
    (hreference : f.view.get? (.stack 2) = some reference)
    (hposition : f.view.get? (.stack 1) = some position)
    (hstored : f.view.get? (.stack 0) = some stored) :
    s.storeEffect k o f ≠ .spoil ↔
      s.Decided k o.allocation o.length reference position stored := by
  have h2 : f.peek? 2 = some reference := hreference
  have h1 : f.peek? 1 = some position := hposition
  have h0 : f.peek? 0 = some stored := hstored
  simp only [decided_iff, storeEffect, h2, h1, h0, ← FrameGraph.mustOriginate?_eq_some_iff,
    ← FrameGraph.mayAlias_iff ha, ← FrameGraph.isLiteral_iff]
  cases hmust : s.graph.mustOriginate? s.maxTraceDepth reference with
  | none =>
    by_cases halias : s.graph.mayAlias reference o.allocation = true
    · simp [halias]
    · simp [halias]
  | some b =>
    by_cases hb : b = o.allocation
    · subst hb
      cases hslot : (s.graph.literalInt? position).bind naturalOf? with
      | none => simp
      | some slot =>
        cases helement : s.infer k stored with
        | none => simp
        | some element =>
          by_cases hlt : slot < o.length
          · simp [hlt]
          · simp [hlt]
    · simp [hb]

/-- A store that must write a known element of the array has this effect. -/
theorem storeEffect_eq_write_of (hreference : f.view.get? (.stack 2) = some reference)
    (hposition : f.view.get? (.stack 1) = some position)
    (hstored : f.view.get? (.stack 0) = some stored)
    (hmust : s.graph.MustComeFrom s.maxTraceDepth reference o.allocation)
    (hslot : s.graph.IsLiteral position slot) (hlt : slot < o.length)
    (helement : s.infer k stored = some element) :
    s.storeEffect k o f = .write slot element := by
  have h2 : f.peek? 2 = some reference := hreference
  have h1 : f.peek? 1 = some position := hposition
  have h0 : f.peek? 0 = some stored := hstored
  rw [← FrameGraph.mustOriginate?_eq_some_iff] at hmust
  rw [← FrameGraph.isLiteral_iff] at hslot
  simp only [storeEffect, h2, h1, h0, hmust, hslot, helement, if_pos hlt, if_true]

end Scope

/-! ## The window -/

namespace FrameGraph

variable {g : FrameGraph} {j : Nat}

theorem Solved.size_successors_eq_one_iff (hg : g.Solved) :
    (g.successors j).size = 1 ↔ ∃! next, g.body.Flow j next := by
  simp only [← hg.mem_successors_iff_flow]
  constructor
  · intro h
    obtain ⟨next, hnext⟩ := List.length_eq_one_iff.mp h
    refine ⟨next, ?_, fun next' hnext' => ?_⟩
    · simp [IndexSet.mem_def, hnext]
    · simpa [IndexSet.mem_def, hnext] using hnext'
  · rintro ⟨next, hnext, hunique⟩
    have hsingle : g.successors j = .singleton next := by
      refine IndexSet.ext_mem fun i => ?_
      rw [IndexSet.mem_singleton]
      refine ⟨hunique i, ?_⟩
      rintro rfl
      exact hnext
    rw [hsingle]
    rfl

theorem Solved.frame?_of_flow (hg : g.Solved) {next : Nat} (h : g.body.Flow j next) :
    ∃ f, g.frame? j = some f :=
  hg.frame?_of_mem_successors (hg.mem_successors_iff_flow.mpr h)

end FrameGraph

namespace Scope

variable {s : Scope} {k : ConstantKind} {o : ArrayOrigin} {f : Frame} {a i j site slot : Nat}
  {element : k.Value} {list : List k.Value} {reference position stored : IndexSet}

/-- An array store that can be reached has its three operands. -/
theorem exists_arrayStoreAt (hg : s.graph.Solved)
    (hnode : s.graph.node? j = some (.arrayStore, f)) :
    ∃ reference position stored, f.view.get? (.stack 2) = some reference ∧
      f.view.get? (.stack 1) = some position ∧ f.view.get? (.stack 0) = some stored := by
  obtain ⟨hi, hf⟩ := FrameGraph.node?_eq_some_iff.mp hnode
  have hdepth : 3 ≤ f.view.stack.length := (hg.accepts hf hi).depth
  exact ⟨_, _, _, List.getElem?_eq_getElem (by omega), List.getElem?_eq_getElem (by omega),
    List.getElem?_eq_getElem (by omega)⟩

/-- What does not spoil the window has one way to go on and stores only what is known. -/
theorem windowEffect_ne_spoil_iff (hg : s.graph.Solved) (ha : o.allocation < s.graph.length) :
    s.windowEffect k o j ≠ .spoil ↔ (∃! next, s.graph.body.Flow j next) ∧
      ∀ reference position stored, s.ArrayStoreAt j reference position stored →
        s.Decided k o.allocation o.length reference position stored := by
  constructor
  · intro h
    refine ⟨?_, ?_⟩
    · rw [← hg.size_successors_eq_one_iff]
      by_contra hsize
      exact h (if_pos hsize)
    · rintro reference position stored ⟨f, hnode, hreference, hposition, hstored⟩
      obtain ⟨hi, hf⟩ := FrameGraph.node?_eq_some_iff.mp hnode
      rw [windowEffect_of_arrayStore h hi hf] at h
      exact (storeEffect_ne_spoil_iff ha hreference hposition hstored).mp h
  · rintro ⟨hone, hdecided⟩
    obtain ⟨f, hf⟩ := hg.frame?_of_flow hone.exists.choose_spec
    have hsize := hg.size_successors_eq_one_iff.mpr hone
    unfold windowEffect
    rw [if_neg (not_not.mpr hsize)]
    split
    · next hi =>
      have hnode := FrameGraph.node?_eq_some_iff.mpr ⟨hi, hf⟩
      obtain ⟨reference, position, stored, hreference, hposition, hstored⟩ :=
        exists_arrayStoreAt hg hnode
      simp only [hf]
      refine (storeEffect_ne_spoil_iff ha hreference hposition hstored).mpr ?_
      exact hdecided _ _ _ ⟨f, hnode, hreference, hposition, hstored⟩
    · simp

/-- What an instruction of the window is judged to write, it stores. -/
theorem storesElement_of_write (hg : s.graph.Solved)
    (h : s.windowEffect k o j = .write slot element) :
    s.StoresElement k o.allocation j slot element := by
  have hi := instruction?_of_windowEffect_eq_write h
  have hspoil : s.windowEffect k o j ≠ .spoil := by simp [h]
  have hone : (s.graph.successors j).size = 1 := by
    by_contra hsize
    exact hspoil (if_pos hsize)
  obtain ⟨f, hf⟩ := hg.frame?_of_flow (hg.size_successors_eq_one_iff.mp hone).exists.choose_spec
  rw [windowEffect_of_arrayStore hspoil hi hf] at h
  obtain ⟨reference, position, stored, n, hreference, hposition, hstored, hmust, hn, hnatural,
    helement⟩ := storeEffect_eq_write h
  refine ⟨reference, position, stored, ?_, FrameGraph.mustOriginate?_eq_some_iff.mp hmust, ?_,
    helement⟩
  · exact ⟨f, FrameGraph.node?_eq_some_iff.mpr ⟨hi, hf⟩, hreference, hposition, hstored⟩
  · rw [← FrameGraph.isLiteral_iff, hn]
    exact hnatural

/-- In a window that is not spoiled, what is stored to the array is an element and is written. -/
theorem write_of_storesElement (ha : o.allocation < s.graph.length)
    (hspoil : s.windowEffect k o j ≠ .spoil) (h : s.StoresElement k o.allocation j slot element) :
    s.windowEffect k o j = .write slot element ∧ slot < o.length := by
  obtain ⟨reference, position, stored, ⟨f, hnode, hreference, hposition, hstored⟩, hmust, hslot,
    helement⟩ := h
  obtain ⟨hi, hf⟩ := FrameGraph.node?_eq_some_iff.mp hnode
  have heffect := windowEffect_of_arrayStore hspoil hi hf
  rw [heffect] at hspoil ⊢
  obtain ⟨slot', element', hslot', hlt, -⟩ :=
    ((storeEffect_ne_spoil_iff ha hreference hposition hstored).mp hspoil).known hmust
  have hsame : slot' = slot := by
    rw [← FrameGraph.isLiteral_iff] at hslot hslot'
    exact Option.some.inj (hslot'.symm.trans hslot)
  subst hsame
  exact ⟨storeEffect_eq_write_of hreference hposition hstored hmust hslot hlt helement, hlt⟩

/-! ## Collecting the elements -/

theorem lookup_collect_of_start {α : Type} {l : List (WindowEffect α)}
    {start written : List (Nat × α)} (h : collect l start = some written) {e : α}
    (hstart : start.lookup slot = some e) : written.lookup slot = some e := by
  induction l generalizing start with
  | nil =>
    obtain rfl : start = written := Option.some.inj h
    exact hstart
  | cons effect l ih =>
    rcases collect_cons h with ⟨-, h⟩ | ⟨slot', e', -, hnew, h⟩
    · exact ih h hstart
    · refine ih h ?_
      have hne : slot ≠ slot' := by
        rintro rfl
        rw [hnew] at hstart
        simp at hstart
      rw [List.lookup_cons, beq_false_of_ne hne]
      exact hstart

/-- What is written can be looked up in what was collected. -/
theorem lookup_collect_of_mem {α : Type} {l : List (WindowEffect α)}
    {start written : List (Nat × α)} (h : collect l start = some written) {e : α}
    (hmem : .write slot e ∈ l) : written.lookup slot = some e := by
  induction l generalizing start with
  | nil => simp at hmem
  | cons effect l ih =>
    rcases collect_cons h with ⟨rfl, h⟩ | ⟨slot', e', rfl, -, h⟩
    · exact ih h (by simpa using hmem)
    · rcases List.mem_cons.mp hmem with heq | hmem
      · obtain ⟨rfl, rfl⟩ := WindowEffect.write.inj heq
        exact lookup_collect_of_start h (by simp)
      · exact ih h hmem

theorem length_collect_le {α : Type} {l : List (WindowEffect α)} {start written : List (Nat × α)}
    (h : collect l start = some written) : written.length ≤ start.length + l.length := by
  induction l generalizing start with
  | nil =>
    obtain rfl : start = written := Option.some.inj h
    exact Nat.le_refl _
  | cons effect l ih =>
    rcases collect_cons h with ⟨-, h⟩ | ⟨_, _, -, -, h⟩
    · have hle := ih h
      rw [List.length_cons]
      omega
    · have hle := ih h
      rw [List.length_cons] at hle ⊢
      omega

/-- Effects that spoil nothing and write different elements can be collected. -/
theorem exists_collect {α : Type} {effect : Nat → WindowEffect α} {l : List Nat} (hl : l.Nodup)
    (hclear : ∀ j ∈ l, effect j ≠ .spoil)
    (honce : ∀ i ∈ l, ∀ j ∈ l, i ≠ j → ∀ slot slot' e e', effect i = .write slot e →
      effect j = .write slot' e' → slot ≠ slot') {start : List (Nat × α)}
    (hfresh : ∀ j ∈ l, ∀ slot e, effect j = .write slot e → start.lookup slot = none) :
    ∃ written, collect (l.map effect) start = some written := by
  induction l generalizing start with
  | nil => exact ⟨start, rfl⟩
  | cons n l ih =>
    obtain ⟨hn, hl⟩ := List.nodup_cons.mp hl
    have hclear' := fun j hj => hclear j (List.mem_cons_of_mem n hj)
    have honce' := fun i hi j hj =>
      honce i (List.mem_cons_of_mem n hi) j (List.mem_cons_of_mem n hj)
    rw [List.map_cons]
    cases heffect : effect n with
    | none => exact ih hl hclear' honce' fun j hj => hfresh j (List.mem_cons_of_mem n hj)
    | spoil => exact absurd heffect (hclear n List.mem_cons_self)
    | write slot e =>
      have hnew := hfresh n List.mem_cons_self slot e heffect
      rw [collect, if_neg (by simp [hnew])]
      refine ih hl hclear' honce' fun j hj slot' e' hwrite => ?_
      -- no later effect writes the element that has just been written
      have hne : n ≠ j := fun heq => hn (heq ▸ hj)
      have hslot := honce n List.mem_cons_self j (List.mem_cons_of_mem n hj) hne _ _ _ _ heffect
        hwrite
      rw [List.lookup_cons, beq_false_of_ne hslot.symm]
      exact hfresh j (List.mem_cons_of_mem n hj) slot' e' hwrite

theorem mapM_of_forall₂ {α β : Type} {f : α → Option β} {l : List α} {l' : List β}
    (h : List.Forall₂ (fun x y => f x = some y) l l') : l.mapM f = some l' := by
  induction h with
  | nil => rfl
  | cons hxy _ ih => simp [List.mapM_cons, hxy, ih]

/-- If everything is known that it takes, the elements are found. -/
theorem Found.elements? (h : s.Found k o site list) : s.elements? k o site = some list := by
  have hafter := h.after
  have hmem : ∀ {j}, j ∈ List.range' o.allocation (site - o.allocation) ↔
      o.allocation ≤ j ∧ j < site := by
    intro j
    rw [List.mem_range'_1]
    omega
  have hcollect : ∃ written, collect ((List.range' o.allocation (site - o.allocation)).map
      (s.windowEffect k o)) [] = some written :=
    exists_collect List.nodup_range' (fun j hj => h.clear j (hmem.mp hj).1 (hmem.mp hj).2)
      (fun i hi j hj => h.once i j (hmem.mp hi).1 (hmem.mp hi).2 (hmem.mp hj).1 (hmem.mp hj).2)
      (fun _ _ _ _ _ => rfl)
  obtain ⟨written, hwritten⟩ := hcollect
  have hlookup : ∀ slot element, list[slot]? = some element →
      written.lookup slot = some element := by
    intro slot element hslot
    obtain ⟨j, hj, hlt, hwrite⟩ := h.written slot element hslot
    exact lookup_collect_of_mem hwritten (hwrite ▸ List.mem_map_of_mem (hmem.mpr ⟨hj, hlt⟩))
  -- every element was written in the window, so the window is long enough for them
  have hlong : o.length ≤ site - o.allocation := by
    have hsubset : List.range o.length ⊆ written.map Prod.fst := by
      intro slot hslot
      rw [List.mem_range, ← h.length] at hslot
      obtain ⟨l₁, l₂, rfl, -⟩ :=
        List.lookup_eq_some_iff.mp (hlookup slot _ (List.getElem?_eq_getElem hslot))
      simp
    calc o.length = (List.range o.length).length := List.length_range.symm
      _ ≤ (written.map Prod.fst).length := List.nodup_range.length_le_of_subset hsubset
      _ = written.length := List.length_map ..
      _ ≤ site - o.allocation := by simpa using length_collect_le hwritten
  unfold Scope.elements?
  simp only [List.length_range', if_neg (Nat.not_lt.mpr hlong), hwritten]
  refine mapM_of_forall₂ (List.forall₂_iff_get.mpr ⟨?_, fun slot hrange hlist => ?_⟩)
  · rw [List.length_range, h.length]
  · simpa using hlookup slot _ (List.getElem?_eq_getElem hlist)

/-- If everything is known that it takes, an array is found constant. -/
theorem Found.inferArray {set : IndexSet} (h : s.Found k o site list)
    (horigin : s.graph.origin? s.maxTraceDepth set = some o) :
    s.inferArray k set site = some list := by
  have hafter : decide (site ≤ o.allocation) = false := decide_eq_false (Nat.not_le.mpr h.after)
  unfold Scope.inferArray
  simp only [horigin, hafter, h.kept, Bool.or_false, Bool.false_eq_true, if_false]
  exact h.elements?

/-! ## The criterion -/

/--
A value is a constant array at a call. The chain of its single producers leads through loads,
duplicates and at most one store to an allocation of the length of the list. The array stores
between the allocation and the call that store to it are in bijection with the elements.
-/
structure ConstantArray (s : Scope) (k : ConstantKind) (set : IndexSet) (site : Nat)
    (list : List k.Value) (p : Nat) (chain : List Nat) (a : Nat) : Prop where
  single : set = .singleton p
  leads : Chain (s.graph.Hop s.graph.ToAllocation) p chain a
  /-- The chain lists both its ends, so it has one hop less than instructions. -/
  hops : chain.length ≤ s.maxTraceDepth + 1
  allocates : s.graph.AllocatesArray a list.length
  before : a < site
  kept : ∀ j, j ≠ site → Relation.ReflTransGen s.graph.body.Flow j site →
    ¬ s.LetsEscape chain a j
  straight : ∀ j, a ≤ j → j < site → ∃! next, s.graph.body.Flow j next
  decided : ∀ j reference position stored, a ≤ j → j < site →
    s.ArrayStoreAt j reference position stored →
    s.Decided k a list.length reference position stored
  once : ∀ i j slot element element', a ≤ i → i < site → a ≤ j → j < site →
    s.StoresElement k a i slot element → s.StoresElement k a j slot element' → i = j
  elements : ∀ slot element, list[slot]? = some element ↔
    ∃ j, a ≤ j ∧ j < site ∧ s.StoresElement k a j slot element

/-- Where an array is found constant, no two instructions store to the same element. -/
theorem Found.eq_of_storesElement (h : s.Found k o site list)
    (ha : o.allocation < s.graph.length) {element' : k.Value} (hi : o.allocation ≤ i)
    (hilt : i < site) (hj : o.allocation ≤ j) (hjlt : j < site)
    (hstore : s.StoresElement k o.allocation i slot element)
    (hstore' : s.StoresElement k o.allocation j slot element') : i = j := by
  by_contra hne
  obtain ⟨hwrite, -⟩ := write_of_storesElement ha (h.clear i hi hilt) hstore
  obtain ⟨hwrite', -⟩ := write_of_storesElement ha (h.clear j hj hjlt) hstore'
  exact h.once i j hi hilt hj hjlt hne slot slot element element' hwrite hwrite' rfl

/-- Where an array is found constant, its elements are what is stored in the window. -/
theorem Found.getElem?_eq_some_iff (h : s.Found k o site list) (hg : s.graph.Solved)
    (ha : o.allocation < s.graph.length) :
    list[slot]? = some element ↔
      ∃ j, o.allocation ≤ j ∧ j < site ∧ s.StoresElement k o.allocation j slot element := by
  constructor
  · intro hslot
    obtain ⟨j, hj, hlt, hwrite⟩ := h.written slot element hslot
    exact ⟨j, hj, hlt, storesElement_of_write hg hwrite⟩
  · rintro ⟨j, hj, hlt, hstore⟩
    obtain ⟨hwrite, hslot⟩ := write_of_storesElement ha (h.clear j hj hlt) hstore
    rw [← h.length] at hslot
    have hget := List.getElem?_eq_getElem hslot
    obtain ⟨j', hj', hlt', hwrite'⟩ := h.written slot _ hget
    obtain rfl :=
      h.eq_of_storesElement ha hj hlt hj' hlt' hstore (storesElement_of_write hg hwrite')
    rw [hget, (WindowEffect.write.inj (hwrite.symm.trans hwrite')).2]

theorem constantArray_of_found {set : IndexSet} (hg : s.graph.Solved)
    (horigin : s.graph.origin? s.maxTraceDepth set = some o) (h : s.Found k o site list) :
    ∃ p chain, s.ConstantArray k set site list p chain o.allocation := by
  obtain ⟨p, chain, hset, hchain, hhops, hnew, hstores⟩ :=
    FrameGraph.origin?_eq_some_iff.mp horigin
  have ha := hnew.lt_length
  have hmem : ∀ j, s.graph.isStoreAt j = true → (j ∈ o.stores ↔ j ∈ chain) := by
    intro j hj
    simp [hstores, hj]
  have hclear := fun j hj hlt => (windowEffect_ne_spoil_iff hg ha).mp (h.clear j hj hlt)
  exact ⟨p, chain, {
    single := hset
    leads := hchain
    hops := hhops
    allocates := h.length ▸ hnew
    before := h.after
    kept := (escapes_eq_false_iff hg ha hmem).mp h.kept
    straight := fun j hj hlt => (hclear j hj hlt).1
    decided := fun j _ _ _ hj hlt hstore => h.length ▸ (hclear j hj hlt).2 _ _ _ hstore
    once := fun i j slot e e' hi hilt hj hjlt => h.eq_of_storesElement ha hi hilt hj hjlt
    elements := fun slot e => h.getElem?_eq_some_iff hg ha }⟩

theorem ConstantArray.found {set : IndexSet} {p : Nat} {chain : List Nat} (hg : s.graph.Solved)
    (h : s.ConstantArray k set site list p chain a) :
    s.Found k ⟨a, list.length, chain.filter s.graph.isStoreAt⟩ site list := by
  have ha := h.allocates.lt_length
  have hmem : ∀ j, s.graph.isStoreAt j = true →
      (j ∈ chain.filter s.graph.isStoreAt ↔ j ∈ chain) := by
    intro j hj
    simp [hj]
  have hclear : ∀ j, a ≤ j → j < site →
      s.windowEffect k ⟨a, list.length, chain.filter s.graph.isStoreAt⟩ j ≠ .spoil := by
    intro j hj hlt
    refine (windowEffect_ne_spoil_iff hg ha).mpr ⟨h.straight j hj hlt, ?_⟩
    exact fun _ _ _ hstore => h.decided j _ _ _ hj hlt hstore
  refine ⟨h.before, (escapes_eq_false_iff hg ha hmem).mpr h.kept, hclear, ?_, rfl, ?_⟩
  · intro i j hi hilt hj hjlt hne slot slot' e e' hwrite hwrite' heq
    subst heq
    exact hne (h.once i j slot e e' hi hilt hj hjlt (storesElement_of_write hg hwrite)
      (storesElement_of_write hg hwrite'))
  · intro slot e hslot
    obtain ⟨j, hj, hlt, hstore⟩ := (h.elements slot e).mp hslot
    exact ⟨j, hj, hlt, (write_of_storesElement ha (hclear j hj hlt) hstore).1⟩

/-- The arrays that are found constant are exactly the constant ones. -/
theorem inferArray_eq_some_iff {m : MethodBody} {set : IndexSet}
    (hbuild : FrameGraph.build m = .ok s.graph) :
    s.inferArray k set site = some list ↔
      ∃ p chain a, s.ConstantArray k set site list p chain a := by
  have hg := FrameGraph.solved_of_build hbuild
  constructor
  · intro h
    cases horigin : s.graph.origin? s.maxTraceDepth set with
    | none =>
      rw [inferArray, horigin] at h
      simp at h
    | some o =>
      obtain ⟨p, chain, harray⟩ :=
        constantArray_of_found hg horigin (found_of_inferArray horigin h)
      exact ⟨p, chain, o.allocation, harray⟩
  · rintro ⟨p, chain, a, harray⟩
    refine (harray.found hg).inferArray (FrameGraph.origin?_eq_some_iff.mpr ?_)
    exact ⟨p, chain, harray.single, harray.leads, harray.hops, harray.allocates, rfl⟩

/-- Fills an array from its end, once through a local slot and once through a cast of it. -/
def fillBackwards : MethodBody where
  name := "fillBackwards"
  descriptor := ⟨[], none⟩
  flags := .static
  maxLocals := 1
  code := #[.intConst 2, .newArray (.object "java/lang/String"), .store 0, .load 0, .intConst 1,
    .ldc (.text "b"), .arrayStore, .load 0, .checkCast (.array (.object "java/lang/String")),
    .intConst 0, .ldc (.text "a"), .arrayStore, .load 0, .invoke Machine.printAll, .ret false]

/-- The array is found constant, with its elements in order, and it is a constant array. -/
theorem inferArray_eq_some_iff_fillBackwards : ∃ g, FrameGraph.build fillBackwards = .ok g ∧
    (Machine.quietScope g Machine.printSafely).inferArray .text (.singleton 12) 13 =
      some ["a", "b"] ∧
    ∃ p chain a, (Machine.quietScope g Machine.printSafely).ConstantArray .text (.singleton 12) 13
      ["a", "b"] p chain a := by
  obtain ⟨g, f, hbuild, -, -, hinfer⟩ :=
    Machine.exists_of_infer fillBackwards 13 12 ["a", "b"] (by cbv)
  exact ⟨g, hbuild, hinfer, (inferArray_eq_some_iff hbuild).mp hinfer⟩

end Scope

end CallFold
