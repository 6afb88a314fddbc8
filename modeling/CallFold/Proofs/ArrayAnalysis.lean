import CallFold.Proofs.Chains
import CallFold.Proofs.Reach
import CallFold.Proofs.ReachingProducers

/-!
# What the array analysis establishes

The analysis of arrays looks only at frames. This module says what its answers mean for the paths
through a method: which places may hold a reference to an array (`Solved.mayAlias_of_source`), what
an array store in the window was taken to do, and what is known once an array is found constant
(`Scope.Found`).

The window is scanned in the order of the code. That control passes it in this order is a condition
of its own (`MethodBody.Sealed`), because a jump has a single successor too.
-/

namespace CallFold

/-! ## Possible aliases -/

namespace FrameGraph

variable {g : FrameGraph} {i : Nat} {f : Frame} {place : Place} {set : IndexSet}
  {trail : List Nat}

/-- A frame that accepts an instruction has the place that the instruction copies. -/
theorem exists_get?_of_copiedPlace {instruction : Instruction} {old : Place}
    (hf : f.Accepts instruction) (h : instruction.copiedPlace? = some old) :
    ∃ held, f.view.get? old = some held ∧ copiedSlots instruction f = [held] := by
  cases instruction with
  | load slot =>
    have hlt := hf.slot slot rfl
    obtain rfl : Place.slot slot = old := Option.some.inj h
    have hget : f.view.get? (.slot slot) = some f.locals[slot] := List.getElem?_eq_getElem hlt
    exact ⟨_, hget, congrArg Option.toList hget⟩
  | store _ | dup | checkCast _ =>
    have hlt : 0 < f.stack.length := hf.depth
    obtain rfl : Place.stack 0 = old := Option.some.inj h
    have hget : f.view.get? (.stack 0) = some f.stack[0] := List.getElem?_eq_getElem hlt
    exact ⟨_, hget, congrArg Option.toList hget⟩
  | _ => simp [Instruction.copiedPlace?] at h

/-- A place from which an instruction copies is among the slots that it may hand on. -/
theorem exists_copiedSlot {instruction : Instruction} {new old : Place}
    (hf : f.Accepts instruction) (hnew : instruction.before new = none)
    (hsource : instruction.source? new = some old) :
    ∃ held ∈ copiedSlots instruction f, f.view.get? old = some held := by
  cases hplace : instruction.copiedPlace? with
  | some copied =>
    rw [Instruction.source?_of_copiedPlace hplace hnew] at hsource
    obtain rfl := Option.some.inj hsource
    obtain ⟨held, hget, hslots⟩ := exists_get?_of_copiedPlace hf hplace
    exact ⟨held, by simp [hslots], hget⟩
  | none =>
    cases hcopy : instruction.isCopy with
    | false =>
      rw [Instruction.source?_of_not_copy hcopy hnew] at hsource
      simp at hsource
    | true =>
      -- what is left copies the two topmost values
      have hlast : instruction = .dupX1 ∨ instruction = .swap := by
        cases instruction <;> simp_all [Instruction.copiedPlace?, Instruction.isCopy]
      have hslots : copiedSlots instruction f = (f.peek? 0).toList ++ (f.peek? 1).toList := by
        rcases hlast with rfl | rfl <;> rfl
      have hdepth : 2 ≤ f.stack.length := by
        rcases hlast with rfl | rfl
        · exact hf.depth
        · exact hf.depth
      have hold : old = .stack 0 ∨ old = .stack 1 := by
        cases new with
        | slot index =>
          have hwritten := Instruction.before_slot_eq_none_iff.mp hnew
          rcases hlast with rfl | rfl <;> simp [Instruction.writtenSlot?] at hwritten
        | stack below =>
          rw [Instruction.source?, if_pos (Instruction.before_stack_eq_none_iff.mp hnew)] at hsource
          rcases hlast with rfl | rfl
          · by_cases h1 : below = 1 <;> simp_all [Instruction.pushedFrom?]
          · by_cases h0 : below = 0 <;> simp_all [Instruction.pushedFrom?]
      have h0 : f.peek? 0 = some f.stack[0] := List.getElem?_eq_getElem _
      have h1 : f.peek? 1 = some f.stack[1] := List.getElem?_eq_getElem _
      rw [hslots, h0, h1]
      rcases hold with rfl | rfl
      · exact ⟨_, by simp, h0⟩
      · exact ⟨_, by simp, h1⟩

/-- The instruction that made a value can be reached from its producers along copies. -/
theorem Solved.reaches_of_source (hg : g.Solved) {time q : Nat} (hpath : g.body.Path trail i)
    (hf : g.frame? i = some f) (hset : f.view.get? place = some set)
    (hsource : g.body.source trail place = .made time q) :
    Reaches g.length g.copySources set.toList q := by
  induction hn : trail.length using Nat.strongRecOn
    generalizing trail i f place set with
  | _ n ih =>
    rcases hg.exists_producer hpath hf hset with ⟨hentry, -⟩ | hproducer
    · rw [hsource] at hentry
      simp at hentry
    · obtain ⟨p, hp, later, earlier, new, instruction, rfl, hpath', hcode, hnew, hsource'⟩ :=
        hproducer
      obtain ⟨fp, hfp, -⟩ := hg.covers hpath'
      have hroot : Reaches g.length g.copySources set.toList p := .root hp (lt_length_of_frame hfp)
      rw [hsource] at hsource'
      cases hold : instruction.source? new with
      | none =>
        rw [MethodBody.source_cons_of_none hcode hold] at hsource'
        obtain ⟨-, rfl⟩ := Source.made.inj hsource'
        exact hroot
      | some old =>
        -- a copy: what was copied is an edge away, and came to its place earlier
        rw [MethodBody.source_cons_of_some hcode hold] at hsource'
        obtain ⟨held, hheld, hget⟩ := exists_copiedSlot (hg.accepts hfp hcode) hnew hold
        have hlt : earlier.length < n := by
          rw [← hn, List.length_append, List.length_cons]
          omega
        refine (ih earlier.length hlt hpath' hfp hget hsource'.symm rfl).trans fun j hj hlt => ?_
        refine .edge hroot ?_ hlt
        rw [copySources, node?_eq_some_iff.mpr ⟨hcode, hfp⟩]
        exact List.mem_flatMap.mpr ⟨held, hheld, hj⟩

/-- A value may be a reference to what made it. -/
theorem Solved.mayAlias_of_source (hg : g.Solved) {time q : Nat} (hpath : g.body.Path trail i)
    (hf : g.frame? i = some f) (hset : f.view.get? place = some set)
    (hsource : g.body.source trail place = .made time q) : g.mayAlias set q = true :=
  contains_reachable_iff.mpr (hg.reaches_of_source hpath hf hset hsource)

end FrameGraph

/-! ## Stores in the window -/

namespace Scope

variable {s : Scope} {k : ConstantKind} {o : ArrayOrigin} {f : Frame} {trail : List Nat} {j : Nat}

/-- A store that writes an element stores a constant at a literal position of the array. -/
theorem storeEffect_eq_write {slot : Nat} {element : k.Value}
    (h : s.storeEffect k o f = .write slot element) :
    ∃ reference position stored n, f.view.get? (.stack 2) = some reference ∧
      f.view.get? (.stack 1) = some position ∧ f.view.get? (.stack 0) = some stored ∧
      s.graph.mustOriginate? s.maxTraceDepth reference = some o.allocation ∧
      s.graph.literalInt? position = some n ∧ naturalOf? n = some slot ∧
      s.infer k stored = some element := by
  unfold storeEffect at h
  split at h
  · next reference position stored hreference hposition hstored =>
    split at h
    · next allocation hmust =>
      split at h
      · next heq =>
        subst heq
        split at h
        · next slot' element' hslot helement =>
          split at h
          · obtain ⟨rfl, rfl⟩ := WindowEffect.write.inj h
            obtain ⟨n, hn, hnatural⟩ := Option.bind_eq_some_iff.mp hslot
            exact ⟨reference, position, stored, n, hreference, hposition, hstored, hmust, hn,
              hnatural, helement⟩
          · simp at h
        · simp at h
      · simp at h
    · split at h
      · simp at h
      · simp at h
  · simp at h

/-- A store without an effect stores to another allocation, or to no alias of the array. -/
theorem storeEffect_eq_none (h : s.storeEffect k o f = .none) :
    ∃ reference, f.view.get? (.stack 2) = some reference ∧
      ((∃ a, s.graph.mustOriginate? s.maxTraceDepth reference = some a ∧ a ≠ o.allocation) ∨
        s.graph.mayAlias reference o.allocation = false) := by
  unfold storeEffect at h
  split at h
  · next reference position stored hreference _ _ =>
    refine ⟨reference, hreference, ?_⟩
    split at h
    · next a hmust =>
      split at h
      · split at h
        · split at h
          · simp at h
          · simp at h
        · simp at h
      · next hne => exact Or.inl ⟨a, hmust, hne⟩
    · split at h
      · simp at h
      · next hno => exact Or.inr (Bool.not_eq_true _ ▸ hno)
  · simp at h

/-- A store without an effect on the array does not store to it. -/
theorem source_ne_of_storeEffect_eq_none (hg : s.graph.Solved)
    (h : s.storeEffect k o f = .none) (hpath : s.graph.body.Path trail j)
    (hf : s.graph.frame? j = some f) (time : Nat) :
    s.graph.body.source trail (.stack 2) ≠ .made time o.allocation := by
  intro hsource
  obtain ⟨reference, hget, ⟨a, hmust, hne⟩ | hno⟩ := storeEffect_eq_none h
  · obtain ⟨hleads, element, hnew⟩ := FrameGraph.leads_of_traceAllocation hmust
    rcases hg.source_of_leads hleads hnew rfl hpath hf hget with ⟨slot, -, hentry⟩ | ⟨t, hmade⟩
    · rw [hsource] at hentry
      simp at hentry
    · rw [hsource] at hmade
      exact hne (Source.made.inj hmade).2.symm
  · rw [hg.mayAlias_of_source hpath hf hget hsource] at hno
    simp at hno

/-- A store in a window that is not spoiled was judged by its frame. -/
theorem windowEffect_of_arrayStore (h : s.windowEffect k o j ≠ .spoil)
    (hi : s.graph.instruction? j = some .arrayStore) (hf : s.graph.frame? j = some f) :
    s.windowEffect k o j = s.storeEffect k o f := by
  unfold windowEffect at h ⊢
  split at h
  · exact absurd rfl h
  · next hsize => rw [if_neg hsize, hi, hf]

theorem instruction?_of_windowEffect_eq_write {slot : Nat} {element : k.Value}
    (h : s.windowEffect k o j = .write slot element) :
    s.graph.instruction? j = some .arrayStore := by
  unfold windowEffect at h
  split at h
  · simp at h
  · split at h
    · next hi => exact hi
    · simp at h

end Scope

/-! ## The way to the call -/

namespace MethodBody

variable {m : MethodBody} {a c i : Nat} {earlier : List Nat}

/-- No instruction from `a` up to `c` leads anywhere but to the next one. -/
def Sealed (m : MethodBody) (a c : Nat) : Prop :=
  ∀ j, a ≤ j → j < c → ∀ k, m.Edge j k → k = j + 1

theorem sealed_of_no_targets
    (h : ∀ j, a ≤ j → j < c → ∃ i, m.code[j]? = some i ∧ i.branchTargets = []) : m.Sealed a c := by
  rintro j hj hlt k ⟨i, hi, hk⟩
  obtain ⟨i', hi', hnone⟩ := h j hj hlt
  obtain rfl := Option.some.inj (hi.symm.trans hi')
  rcases hk with ⟨-, hk⟩ | hk
  · exact hk
  · simp [hnone] at hk

/-- Control that nothing leads astray has come in a straight line. -/
theorem Path.straight_of_sealed (hsealed : m.Sealed a c) (hac : a < c) {recent : List Nat}
    (h : m.Path (recent ++ a :: earlier) i) (hc : c ∉ recent) :
    a < i ∧ i ≤ c ∧ a :: recent.reverse = List.range' a (i - a) := by
  induction recent generalizing i with
  | nil =>
    cases h with
    | step _ hedge _ =>
      obtain rfl := hsealed a (Nat.le_refl a) hac i hedge
      refine ⟨Nat.lt_succ_self a, hac, ?_⟩
      rw [Nat.add_sub_cancel_left]
      rfl
  | cons last recent ih =>
    cases h with
    | step hpath hedge _ =>
      obtain ⟨hlt, hle, hstraight⟩ := ih hpath fun hmem => hc (List.mem_cons_of_mem _ hmem)
      have hne : last ≠ c := fun heq => hc (heq ▸ List.mem_cons_self)
      obtain rfl := hsealed last (by omega) (by omega) i hedge
      refine ⟨by omega, by omega, ?_⟩
      rw [List.reverse_cons, ← List.cons_append, hstraight,
        show last + 1 - a = last - a + 1 by omega, List.range'_1_concat,
        show a + (last - a) = last by omega]

/-- Control that has come from `a` to `c` has passed everything between them on the way. -/
theorem Path.mem_of_sealed (hsealed : m.Sealed a c) (hac : a < c) {recent : List Nat}
    (h : m.Path (recent ++ a :: earlier) c) {j : Nat} (hj : a < j) (hlt : j < c) :
    j ∈ recent := by
  -- whatever came later, it did when it reached `c` for the first time
  obtain ⟨first, hsuffix, hc⟩ := exists_first c recent
  obtain ⟨later, hlater⟩ := hsuffix
  have hfirst : m.Path (first ++ a :: earlier) c := by
    refine h.of_suffix ⟨later, ?_⟩
    rw [← List.cons_append, ← List.append_assoc, hlater]
    rfl
  obtain ⟨-, -, hstraight⟩ := hfirst.straight_of_sealed hsealed hac hc
  have hpassed : j ∈ a :: first.reverse := by
    rw [hstraight, List.mem_range'_1]
    omega
  have hmem : j ∈ c :: recent := by
    rw [← hlater]
    exact List.mem_append_right later (List.mem_cons_of_mem c
      (List.mem_reverse.mp (List.mem_of_ne_of_mem (Nat.ne_of_gt hj) hpassed)))
  exact List.mem_of_ne_of_mem (Nat.ne_of_lt hlt) hmem

end MethodBody

namespace FrameGraph

/-- From every instruction on the way to another one, that one is reached. -/
theorem Solved.reaches_of_path {g : FrameGraph} (hg : g.Solved) {later earlier : List Nat}
    {site i j : Nat} (hpath : g.body.Path (later ++ j :: earlier) i)
    (h : Reaches g.length g.predecessors [site] i) :
    Reaches g.length g.predecessors [site] j := by
  have hback : ∀ {trail p q}, g.body.Path trail p → g.body.Edge p q →
      Reaches g.length g.predecessors [site] q → Reaches g.length g.predecessors [site] p := by
    intro trail p q hp hedge hq
    obtain ⟨f, hf, -⟩ := hg.covers hp
    refine .edge hq ?_ (lt_length_of_frame hf)
    exact (hg.predecessors _ _).mpr ((hg.mem_successors_iff hf).mpr hedge)
  induction later generalizing i with
  | nil =>
    cases hpath with
    | step hpath hedge _ => exact hback hpath hedge h
  | cons last later ih =>
    cases hpath with
    | step hpath hedge _ => exact ih hpath (hback hpath hedge h)

end FrameGraph

/-! ## Arrays that are found constant -/

namespace Scope

/-- What can be collected first is no effect, or an element that was not written before. -/
theorem collect_cons {α : Type} {e : WindowEffect α} {l : List (WindowEffect α)}
    {start written : List (Nat × α)} (h : collect (e :: l) start = some written) :
    e = .none ∧ collect l start = some written ∨
      ∃ slot element, e = .write slot element ∧ start.lookup slot = none ∧
        collect l ((slot, element) :: start) = some written := by
  cases e with
  | none => exact Or.inl ⟨rfl, h⟩
  | spoil => simp [collect] at h
  | write slot element =>
    rw [collect] at h
    split at h
    · simp at h
    · next hnew =>
      exact Or.inr ⟨slot, element, rfl, Option.not_isSome_iff_eq_none.mp hnew, h⟩

theorem ne_spoil_of_collect {α : Type} {l : List (WindowEffect α)} {start written : List (Nat × α)}
    (h : collect l start = some written) : ∀ e ∈ l, e ≠ .spoil := by
  induction l generalizing start with
  | nil => simp
  | cons e l ih =>
    intro e' he'
    rcases collect_cons h with ⟨rfl, h⟩ | ⟨slot, element, rfl, -, h⟩
    · rcases List.mem_cons.mp he' with rfl | hmem
      · simp
      · exact ih h e' hmem
    · rcases List.mem_cons.mp he' with rfl | hmem
      · simp
      · exact ih h e' hmem

theorem mem_of_collect {α : Type} {l : List (WindowEffect α)} {start written : List (Nat × α)}
    (h : collect l start = some written) {slot : Nat} {element : α}
    (hmem : (slot, element) ∈ written) : (slot, element) ∈ start ∨ .write slot element ∈ l := by
  induction l generalizing start with
  | nil =>
    obtain rfl : start = written := Option.some.inj h
    exact Or.inl hmem
  | cons e l ih =>
    rcases collect_cons h with ⟨rfl, h⟩ | ⟨slot', element', rfl, -, h⟩
    · exact (ih h).imp_right (List.mem_cons_of_mem _)
    · rcases ih h with hstart | hl
      · rcases List.mem_cons.mp hstart with heq | hstart
        · obtain ⟨rfl, rfl⟩ := Prod.mk.inj heq
          exact Or.inr List.mem_cons_self
        · exact Or.inl hstart
      · exact Or.inr (List.mem_cons_of_mem _ hl)

/-- What is written had not been written before. -/
theorem lookup_of_collect {α : Type} {l : List (WindowEffect α)} {start written : List (Nat × α)}
    (h : collect l start = some written) {slot : Nat} {element : α}
    (hmem : .write slot element ∈ l) : start.lookup slot = none := by
  induction l generalizing start with
  | nil => simp at hmem
  | cons e l ih =>
    rcases collect_cons h with ⟨rfl, h⟩ | ⟨slot', element', rfl, hnew, h⟩
    · exact ih h (by simpa using hmem)
    · rcases List.mem_cons.mp hmem with heq | hmem
      · rw [(WindowEffect.write.inj heq).1]
        exact hnew
      · have hnone := ih h hmem
        rw [List.lookup_cons] at hnone
        split at hnone
        · simp at hnone
        · exact hnone

/-- Different instructions write different elements. -/
theorem slot_ne_of_collect {α : Type} {effect : Nat → WindowEffect α} {l : List Nat}
    {start written : List (Nat × α)} (h : collect (l.map effect) start = some written) {i j : Nat}
    (hi : i ∈ l) (hj : j ∈ l) (hne : i ≠ j) {slot slot' : Nat} {element element' : α}
    (hwi : effect i = .write slot element) (hwj : effect j = .write slot' element') :
    slot ≠ slot' := by
  rintro rfl
  -- of the two, the one that comes first makes the other one impossible
  have hfirst : ∀ {n n' e e' l start}, effect n = .write slot e → effect n' = .write slot e' →
      n' ∈ l → collect ((n :: l).map effect) start ≠ some written := by
    intro n n' e e' l start hn hn' hmem h
    have hl : .write slot e' ∈ l.map effect := hn' ▸ List.mem_map_of_mem hmem
    rcases collect_cons h with ⟨hnone, -⟩ | ⟨_, _, heq, -, h⟩
    · rw [hn] at hnone
      simp at hnone
    · obtain ⟨rfl, rfl⟩ := WindowEffect.write.inj (hn.symm.trans heq)
      simpa using lookup_of_collect h hl
  induction l generalizing start with
  | nil => simp at hi
  | cons n l ih =>
    rcases List.mem_cons.mp hi with rfl | hil
    · exact hfirst hwi hwj (List.mem_of_ne_of_mem hne.symm hj) h
    · rcases List.mem_cons.mp hj with rfl | hjl
      · exact hfirst hwj hwi hil h
      · rcases collect_cons h with ⟨-, h⟩ | ⟨_, _, -, -, h⟩
        · exact ih h hil hjl
        · exact ih h hil hjl

theorem forall₂_of_mapM {α β : Type} {f : α → Option β} {l : List α} {l' : List β}
    (h : l.mapM f = some l') : List.Forall₂ (fun x y => f x = some y) l l' := by
  induction l generalizing l' with
  | nil =>
    obtain rfl : [] = l' := by simpa using h
    exact List.Forall₂.nil
  | cons x l ih =>
    rw [List.mapM_cons] at h
    obtain ⟨y, hy, hrest⟩ := Option.bind_eq_some_iff.mp h
    obtain ⟨l'', hl'', heq⟩ := Option.bind_eq_some_iff.mp hrest
    rw [← Option.some.inj heq]
    exact List.Forall₂.cons hy (ih hl'')

/-- What is known when an array is found constant at a call. -/
structure Found (s : Scope) (k : ConstantKind) (o : ArrayOrigin) (site : Nat)
    (list : List k.Value) : Prop where
  after : o.allocation < site
  kept : s.escapes o site = false
  clear : ∀ j, o.allocation ≤ j → j < site → s.windowEffect k o j ≠ .spoil
  once : ∀ i j, o.allocation ≤ i → i < site → o.allocation ≤ j → j < site → i ≠ j →
    ∀ slot slot' element element', s.windowEffect k o i = .write slot element →
      s.windowEffect k o j = .write slot' element' → slot ≠ slot'
  length : list.length = o.length
  written : ∀ slot element, list[slot]? = some element →
    ∃ j, o.allocation ≤ j ∧ j < site ∧ s.windowEffect k o j = .write slot element

variable {s : Scope} {k : ConstantKind} {o : ArrayOrigin} {site : Nat} {list : List k.Value}

theorem found_of_elements? (h : s.elements? k o site = some list) (hafter : o.allocation < site)
    (hkept : s.escapes o site = false) : s.Found k o site list := by
  unfold elements? at h
  dsimp only at h
  split at h
  · simp at h
  split at h
  · next collected hcollect =>
    have hwindow : ∀ {j}, o.allocation ≤ j → j < site →
        j ∈ List.range' o.allocation (site - o.allocation) := by
      intro j hj hlt
      rw [List.mem_range'_1]
      omega
    have hlookup := forall₂_of_mapM h
    refine ⟨hafter, hkept, fun j hj hlt => ?_,
      fun i j hi hilt hj hjlt hne _ _ _ _ hwi hwj => ?_, ?_, fun slot element hslot => ?_⟩
    · exact ne_spoil_of_collect hcollect _ (List.mem_map_of_mem (hwindow hj hlt))
    · exact slot_ne_of_collect hcollect (hwindow hi hilt) (hwindow hj hjlt) hne hwi hwj
    · rw [← hlookup.length_eq, List.length_range]
    · have hlt : slot < o.length := by
        have := (List.getElem?_eq_some_iff.mp hslot).1
        rwa [← hlookup.length_eq, List.length_range] at this
      obtain ⟨element', helement', hfound⟩ :=
        Slots.forall₂_getElem? hlookup (List.getElem?_range hlt)
      obtain rfl : element' = element := Option.some.inj (helement'.symm.trans hslot)
      obtain ⟨l₁, l₂, rfl, -⟩ := List.lookup_eq_some_iff.mp hfound
      rcases mem_of_collect hcollect (List.mem_append_right l₁ List.mem_cons_self) with hmem | hmem
      · simp at hmem
      · obtain ⟨j, hj, hwrite⟩ := List.mem_map.mp hmem
        rw [List.mem_range'_1] at hj
        exact ⟨j, hj.1, by omega, hwrite⟩
  · simp at h

/-- What it takes for an array to be found constant. -/
theorem found_of_inferArray {set : IndexSet}
    (horigin : s.graph.origin? s.maxTraceDepth set = some o)
    (h : s.inferArray k set site = some list) : s.Found k o site list := by
  rw [inferArray, horigin] at h
  dsimp only at h
  split at h
  · simp at h
  · next hchecked =>
    rw [Bool.or_eq_true, not_or, decide_eq_true_iff, Nat.not_le, Bool.not_eq_true] at hchecked
    exact found_of_elements? h hchecked.1 hchecked.2

/-- Where an array does not escape, no instruction on the way to the call lets it. -/
theorem escapesAt_of_escapes {j : Nat} (h : s.escapes o site = false)
    (hreaches : Reaches s.graph.length s.graph.predecessors [site] j) (hne : j ≠ site) :
    s.escapesAt o j = false := by
  rw [escapes, List.any_eq_false] at h
  have hmem := BitSet.mem_toList_of_contains (contains_reachable_iff.mpr hreaches)
  simpa [hne] using h j hmem

end Scope

end CallFold
