import CallFold.FrameGraph.Build
import CallFold.Proofs.EdgeTables

/-!
# The worklist in any order

`Exploration.Explores` explores a method in any order: each step executes some instruction of the
list. The exploration that always takes the first one is a special case (`explores_explore`), so
what holds of every order holds of it.

Three invariants are kept by every step.

* `Justified` — every producer in a frame is the last producer of its slot on some clean path. This
  is what keeps frames from growing too large.
* `Invariant.settled` — an instruction that is not on the list has handed its frame on to its
  successors, and its edges are recorded. When the list is empty, this is the fixed point.
* `Tabulates` — the tables hold the edges of the instructions that were executed, and no others.
-/

namespace CallFold

/-! ## Checks -/

theorem checkedSuccessors_eq_ok_iff {length index : Nat} {i : Instruction} {targets : IndexSet} :
    checkedSuccessors length index i = .ok targets ↔
      (∀ target ∈ i.branchTargets, target < length) ∧
      (i.fallsThrough = true → index + 1 < length) ∧ targets = i.successors index := by
  unfold checkedSuccessors
  split
  · next target hfind =>
    have hmem := List.mem_of_find?_eq_some hfind
    have hle : length ≤ target := by simpa using List.find?_some hfind
    simp only [reduceCtorEq, false_iff]
    intro h
    have := h.1 target hmem
    omega
  · next hfind =>
    have hlt : ∀ target ∈ i.branchTargets, target < length := by
      intro target ht
      simpa using List.find?_eq_none.mp hfind target ht
    split
    · next hoff =>
      rw [Bool.and_eq_true, decide_eq_true_iff] at hoff
      simp only [reduceCtorEq, false_iff]
      intro h
      have := h.2.1 hoff.1
      omega
    · next hoff =>
      rw [Bool.and_eq_true, decide_eq_true_iff] at hoff
      have hfalls : i.fallsThrough = true → index + 1 < length := fun hf =>
        Nat.lt_of_not_le fun hle => hoff ⟨hf, hle⟩
      simp only [Except.ok.injEq]
      exact ⟨fun h => ⟨hlt, hfalls, h.symm⟩, fun h => h.2.2.symm⟩

/-- A frame of the right size is accepted, with its successors, exactly if there is no fault. -/
theorem not_fault_iff_accepts {m : MethodBody} {f : Frame} {index : Nat} {i : Instruction}
    (hcode : m.code[index]? = some i) (hlength : f.locals.length = m.maxLocals) :
    ¬ m.Fault index f.depth ↔
      f.Accepts i ∧ checkedSuccessors m.length index i = .ok (i.successors index) := by
  rw [MethodBody.not_fault_iff hcode, Frame.accepts_iff, checkedSuccessors_eq_ok_iff, hlength]
  constructor
  · rintro ⟨hdepth, hslots, htargets, hfalls⟩
    exact ⟨⟨hdepth, hslots⟩, htargets, hfalls, rfl⟩
  · rintro ⟨⟨hdepth, hslots⟩, htargets, hfalls, -⟩
    exact ⟨hdepth, hslots, htargets, hfalls⟩

namespace Exploration

/-! ## Orders -/

/-- An exploration that executes the instructions on the list in any order. -/
inductive Explores (m : MethodBody) : Exploration → Except FrameError Exploration → Prop where
  | done {s : Exploration} (h : s.worklist = []) : Explores m s (.ok s)
  | failed {s : Exploration} {index : Nat} {e : FrameError} (hmem : index ∈ s.worklist)
      (h : (s.without index).visit m index = .error e) : Explores m s (.error e)
  | next {s s' : Exploration} {index : Nat} {r : Except FrameError Exploration}
      (hmem : index ∈ s.worklist) (h : (s.without index).visit m index = .ok s')
      (hrest : Explores m s' r) : Explores m s r

/-- To take the first instruction each time is one of the orders. -/
theorem explores_explore (m : MethodBody) (s : Exploration) (hs : s.Bounded m.length) :
    Explores m s (explore m s hs) := by
  fun_induction explore m s hs with
  | case1 s hs hlist => exact .done hlist
  | case2 s hs index rest hlist e h =>
    have hmem : index ∈ s.worklist := by rw [hlist]; exact List.mem_cons_self
    exact .failed hmem h
  | case3 s hs index rest hlist s' h ih =>
    have hmem : index ∈ s.worklist := by rw [hlist]; exact List.mem_cons_self
    exact .next hmem h ih

/-! ## What a delivery does -/

/-- An instruction has a frame. -/
def At (s : Exploration) (index : Nat) (f : Frame) : Prop := s.frames[index]? = some (some f)

theorem At.unique {s : Exploration} {index : Nat} {f g : Frame} (hf : s.At index f)
    (hg : s.At index g) : f = g := by
  unfold At at hf hg
  rw [hf] at hg
  exact Option.some.inj (Option.some.inj hg)

/-- Frames have only grown, and what has changed is on the list. -/
structure Grown (s s' : Exploration) : Prop where
  size : s'.frames.size = s.frames.size
  above : ∀ index f, s.At index f → ∃ g, s'.At index g ∧ f.Below g
  listed : ∀ index, s'.frames[index]? = s.frames[index]? ∨ index ∈ s'.worklist
  kept : ∀ index ∈ s.worklist, index ∈ s'.worklist

theorem Grown.refl (s : Exploration) : Grown s s where
  size := rfl
  above := fun _ f h => ⟨f, h, .refl f⟩
  listed := fun _ => Or.inl rfl
  kept := fun _ h => h

theorem Grown.trans {s s' s'' : Exploration} (h : Grown s s') (h' : Grown s' s'') :
    Grown s s'' where
  size := h'.size.trans h.size
  above := by
    intro index f hf
    obtain ⟨g, hg, hfg⟩ := h.above index f hf
    obtain ⟨k, hk, hgk⟩ := h'.above index g hg
    exact ⟨k, hk, hfg.trans hgk⟩
  listed := by
    intro index
    rcases h'.listed index with heq | hmem
    · rcases h.listed index with heq' | hmem
      · exact Or.inl (heq.trans heq')
      · exact Or.inr (h'.kept index hmem)
    · exact Or.inr hmem
  kept := fun index hmem => h'.kept index (h.kept index hmem)

theorem at_update {s : Exploration} {index : Nat} (f : Frame) (h : index < s.frames.size) :
    (s.update index f).At index f := by
  simp [At, update, h]

theorem getElem?_update_of_ne {s : Exploration} {index j : Nat} (f : Frame) (h : j ≠ index) :
    (s.update index f).frames[j]? = s.frames[j]? := by
  simp [update, Array.getElem?_setIfInBounds_ne (Ne.symm h)]

/-- After an update, a frame is the new one or one that was there. -/
theorem at_of_at_update {s : Exploration} {index j : Nat} {f g : Frame}
    (h : (s.update index f).At j g) : j = index ∧ g = f ∨ s.At j g := by
  by_cases hj : j = index
  · subst hj
    unfold At update at h
    rw [Array.getElem?_setIfInBounds_self] at h
    split at h
    · exact Or.inl ⟨rfl, (Option.some.inj (Option.some.inj h)).symm⟩
    · simp at h
  · exact Or.inr ((getElem?_update_of_ne f hj).symm.trans h)

theorem mem_worklist_update {s : Exploration} {index : Nat} (f : Frame)
    (h : index < s.frames.size) : index ∈ (s.update index f).worklist :=
  Agenda.mem_push_self (by rwa [s.capacity_agenda])

theorem grown_update {s : Exploration} {index : Nat} {f : Frame} (h : index < s.frames.size)
    (hf : ∀ g, s.At index g → g.Below f) : Grown s (s.update index f) where
  size := by simp [update]
  above := by
    intro j g hg
    by_cases hj : j = index
    · subst hj
      exact ⟨f, at_update f h, hf g hg⟩
    · exact ⟨g, (getElem?_update_of_ne f hj).trans hg, .refl g⟩
  listed := by
    intro j
    by_cases hj : j = index
    · subst hj
      exact Or.inr (mem_worklist_update f h)
    · exact Or.inl (getElem?_update_of_ne f hj)
  kept := fun _ => Agenda.mem_push_of_mem

/-- To record edges changes neither the frames nor the list. -/
theorem grown_record (s : Exploration) (index : Nat) (targets : IndexSet) :
    Grown s (s.record index targets) where
  size := rfl
  above := fun _ f h => ⟨f, h, .refl f⟩
  listed := fun _ => Or.inl rfl
  kept := fun _ h => h

/-- Every frame that there is has a number of local slots. -/
def Sized (n : Nat) (s : Exploration) : Prop := ∀ index f, s.At index f → f.locals.length = n

/-- A frame that was delivered is below the one of the target, and all else has only grown. -/
theorem deliver_eq_ok {n target : Nat} {incoming : Frame} {s s' : Exploration}
    (hs : s.Sized n) (hin : incoming.locals.length = n) (ht : target < s.frames.size)
    (h : s.deliver incoming target = .ok s') :
    Grown s s' ∧ ∃ g, s'.At target g ∧ incoming.Below g := by
  unfold deliver at h
  split at h
  · next present hpresent =>
    have hlength : present.locals.length = incoming.locals.length :=
      (hs target present hpresent).trans hin.symm
    split at h
    · next merged hmerge =>
      obtain ⟨hdepth, rfl, -⟩ := Frame.merge_eq_ok_iff.mp hmerge
      rw [← Except.ok.inj h]
      refine ⟨grown_update ht fun g hg => ?_, _, at_update _ ht,
        Frame.below_join_right hlength hdepth⟩
      rw [At.unique hg hpresent]
      exact Frame.below_join_left _ _
    · next merged hmerge =>
      obtain ⟨hdepth, -, hgrows⟩ := Frame.merge_eq_ok_iff.mp hmerge
      rw [← Except.ok.inj h]
      exact ⟨.refl s, present, hpresent,
        Frame.below_of_grows_eq_false hlength hdepth hgrows.symm⟩
    · simp at h
  · next hnone =>
    rw [← Except.ok.inj h]
    refine ⟨grown_update ht fun g hg => ?_, incoming, at_update _ ht, .refl _⟩
    unfold At at hg
    rw [hnone] at hg
    simp at hg
  · next hnone =>
    rw [Array.getElem?_eq_none_iff] at hnone
    omega

/-- What a merge keeps and the delivered frame has, every frame has after a delivery. -/
theorem forall_of_deliver {P : Nat → Frame → Prop} {target : Nat} {incoming : Frame}
    {s s' : Exploration}
    (hjoin : ∀ f, P target f → f.depth = incoming.depth → P target (f.join incoming))
    (hs : ∀ index f, s.At index f → P index f) (hin : P target incoming)
    (h : s.deliver incoming target = .ok s') : ∀ index f, s'.At index f → P index f := by
  have hupdate : ∀ g, P target g → ∀ index f, (s.update target g).At index f → P index f := by
    intro g hg index f hf
    rcases at_of_at_update hf with ⟨rfl, rfl⟩ | hf
    · exact hg
    · exact hs index f hf
  unfold deliver at h
  split at h
  · next present hpresent =>
    split at h
    · next merged hmerge =>
      obtain ⟨hdepth, rfl, -⟩ := Frame.merge_eq_ok_iff.mp hmerge
      rw [← Except.ok.inj h]
      exact hupdate _ (hjoin present (hs target present hpresent) hdepth)
    · rw [← Except.ok.inj h]; exact hs
    · simp at h
  · rw [← Except.ok.inj h]; exact hupdate _ hin
  · rw [← Except.ok.inj h]; exact hs

/-- A delivery fails only where a frame of another depth stands. -/
theorem deliver_eq_error {target : Nat} {incoming : Frame} {s : Exploration} {e : FrameError}
    (h : s.deliver incoming target = .error e) :
    ∃ present, s.At target present ∧ present.depth ≠ incoming.depth := by
  unfold deliver at h
  split at h
  · next present hpresent =>
    split at h
    · simp at h
    · simp at h
    · next hmerge => exact ⟨present, hpresent, (Frame.merge_eq_error_iff.mp hmerge).1⟩
  · simp at h
  · simp at h

/-- A delivery records no edges. -/
theorem edges_of_deliver {target : Nat} {incoming : Frame} {s s' : Exploration}
    (h : s.deliver incoming target = .ok s') : s'.edges = s.edges := by
  unfold deliver at h
  split at h
  · split at h
    · rw [← Except.ok.inj h]; rfl
    · rw [← Except.ok.inj h]
    · simp at h
  · rw [← Except.ok.inj h]; rfl
  · rw [← Except.ok.inj h]

theorem edges_of_deliverAll {incoming : Frame} :
    ∀ (targets : List Nat) (s s' : Exploration),
      deliverAll incoming targets s = .ok s' → s'.edges = s.edges
  | [], s, s', h => by rw [← Except.ok.inj h]
  | target :: rest, s, s', h => by
    rw [deliverAll] at h
    split at h
    · simp at h
    · next s₁ hdeliver =>
      rw [edges_of_deliverAll rest s₁ s' h, edges_of_deliver hdeliver]

theorem sized_of_deliver {n target : Nat} {incoming : Frame} {s s' : Exploration}
    (hs : s.Sized n) (hin : incoming.locals.length = n)
    (h : s.deliver incoming target = .ok s') : s'.Sized n := by
  refine forall_of_deliver (P := fun _ f => f.locals.length = n) ?_ hs hin h
  intro f hf _
  rw [← (Frame.below_join_left f incoming).length_locals]
  exact hf

theorem deliverAll_eq_ok {n : Nat} {incoming : Frame} (hin : incoming.locals.length = n) :
    ∀ (targets : List Nat) (s s' : Exploration), s.Sized n →
      (∀ target ∈ targets, target < s.frames.size) → deliverAll incoming targets s = .ok s' →
      Grown s s' ∧ ∀ target ∈ targets, ∃ g, s'.At target g ∧ incoming.Below g
  | [], s, s', _, _, h => by
    rw [← Except.ok.inj h]
    exact ⟨.refl s, by simp⟩
  | target :: rest, s, s', hs, hsize, h => by
    rw [deliverAll] at h
    split at h
    · simp at h
    · next s₁ hdeliver =>
      obtain ⟨hgrown, g, hg, hbelow⟩ := deliver_eq_ok hs hin (hsize target (by simp)) hdeliver
      have hsize₁ : ∀ t ∈ rest, t < s₁.frames.size := by
        intro t ht
        rw [hgrown.size]
        exact hsize t (by simp [ht])
      obtain ⟨hgrown', hrest⟩ :=
        deliverAll_eq_ok hin rest s₁ s' (sized_of_deliver hs hin hdeliver) hsize₁ h
      refine ⟨hgrown.trans hgrown', fun t ht => ?_⟩
      rcases List.mem_cons.mp ht with rfl | ht
      · obtain ⟨k, hk, hgk⟩ := hgrown'.above t g hg
        exact ⟨k, hk, hbelow.trans hgk⟩
      · exact hrest t ht

theorem forall_of_deliverAll {P : Nat → Frame → Prop} {incoming : Frame} :
    ∀ (targets : List Nat) (s : Exploration),
      (∀ target f, P target f → P target incoming → f.depth = incoming.depth →
        P target (f.join incoming)) →
      (∀ index f, s.At index f → P index f) → (∀ target ∈ targets, P target incoming) →
      (∀ s', deliverAll incoming targets s = .ok s' → ∀ index f, s'.At index f → P index f) ∧
      (∀ e, deliverAll incoming targets s = .error e →
        ∃ target present, target ∈ targets ∧ P target present ∧ present.depth ≠ incoming.depth)
  | [], s, _, hs, _ => by
    refine ⟨fun s' h => ?_, fun e h => by simp [deliverAll] at h⟩
    rw [← Except.ok.inj h]
    exact hs
  | target :: rest, s, hjoin, hs, hin => by
    have hhead := hin target List.mem_cons_self
    rw [deliverAll]
    split
    · next e hdeliver =>
      refine ⟨fun s' h => by simp at h, fun _ _ => ?_⟩
      obtain ⟨present, hpresent, hdepth⟩ := deliver_eq_error hdeliver
      exact ⟨target, present, List.mem_cons_self, hs target present hpresent, hdepth⟩
    · next s₁ hdeliver =>
      have hs₁ := forall_of_deliver (fun f hf hd => hjoin target f hf hhead hd) hs hhead hdeliver
      obtain ⟨hok, herror⟩ := forall_of_deliverAll rest s₁ hjoin hs₁
        fun t ht => hin t (List.mem_cons_of_mem _ ht)
      refine ⟨hok, fun e h => ?_⟩
      obtain ⟨t, present, ht, hP, hdepth⟩ := herror e h
      exact ⟨t, present, List.mem_cons_of_mem _ ht, hP, hdepth⟩

/-! ## Frames are justified by paths -/

/-- Every producer of a frame is the last producer of its slot on a clean path of the same depth. -/
structure Justified (m : MethodBody) (index : Nat) (f : Frame) : Prop where
  length : f.locals.length = m.maxLocals
  arrival : ∃ trail, m.CleanPath trail index ∧ m.depthAfter trail = f.depth
  producer : ∀ place set p, f.view.get? place = some set → p ∈ set →
    ∃ trail, m.CleanPath trail index ∧ m.depthAfter trail = f.depth ∧
      (m.lastProducers trail).get? place = some (some p)

theorem Justified.entry {m : MethodBody} (h : 0 < m.length) :
    Justified m 0 (.entry m.maxLocals) where
  length := by simp [Frame.entry]
  arrival := ⟨[], .entry h, rfl⟩
  producer := by
    intro place set p hset hp
    cases place with
    | slot index =>
      simp only [Frame.view, Frame.entry, Slots.get?, List.getElem?_replicate] at hset
      split at hset
      · rw [← Option.some.inj hset] at hp
        exact absurd hp IndexSet.not_mem_empty
      · simp at hset
    | stack below => simp [Frame.view, Frame.entry, Slots.get?] at hset

theorem Justified.join {m : MethodBody} {index : Nat} {f g : Frame} (hf : Justified m index f)
    (hg : Justified m index g) (hdepth : f.depth = g.depth) : Justified m index (f.join g) where
  length := by
    rw [← (Frame.below_join_left f g).length_locals]
    exact hf.length
  arrival := by
    rw [← (Frame.below_join_left f g).depth_eq]
    exact hf.arrival
  producer := by
    intro place set p hset hp
    rw [← (Frame.below_join_left f g).depth_eq]
    have hmem : (∃ t, f.view.get? place = some t ∧ p ∈ t) ∨
        ∃ t, g.view.get? place = some t ∧ p ∈ t := by
      cases place with
      | slot index => exact Frame.mem_joinSlots hset hp
      | stack below => exact Frame.mem_joinSlots hset hp
    rcases hmem with ⟨t, ht, hp⟩ | ⟨t, ht, hp⟩
    · exact hf.producer place t p ht hp
    · rw [hdepth]
      exact hg.producer place t p ht hp

/-- A clean path with the depth of a frame can be continued if the frame is accepted. -/
theorem Justified.after {m : MethodBody} {index j : Nat} {f : Frame} {i : Instruction}
    (hf : Justified m index f) (hcode : m.code[index]? = some i)
    (hfault : ¬ m.Fault index f.depth) (hedge : m.Edge index j) :
    Justified m j (f.after index i) := by
  have haccepts := ((not_fault_iff_accepts hcode hf.length).mp hfault).1
  have hextend : ∀ trail, m.CleanPath trail index → m.depthAfter trail = f.depth →
      m.CleanPath (index :: trail) j ∧
        m.depthAfter (index :: trail) = (f.after index i).depth := by
    intro trail hpath hdepth
    refine ⟨.step hpath (hdepth ▸ hfault) hedge, ?_⟩
    rw [MethodBody.depthAfter_cons hcode, Frame.depth_after haccepts, hdepth]
  refine ⟨?_, ?_, ?_⟩
  · rw [Frame.length_locals_after]
    exact hf.length
  · obtain ⟨trail, hpath, hdepth⟩ := hf.arrival
    exact ⟨index :: trail, hextend trail hpath hdepth⟩
  · intro place set p hset hp
    rw [Frame.view_after] at hset
    cases hbefore : i.before place with
    | some old =>
      -- the instruction leaves the content of the place alone
      rw [Slots.get?_change_of_before List.length_replicate hbefore] at hset
      obtain ⟨trail, hpath, hdepth, hlast⟩ := hf.producer old set p hset hp
      obtain ⟨hpath', hdepth'⟩ := hextend trail hpath hdepth
      refine ⟨index :: trail, hpath', hdepth', ?_⟩
      rw [MethodBody.lastProducers_cons hcode,
        Slots.get?_change_of_before List.length_replicate hbefore]
      exact hlast
    | none =>
      -- the instruction is the producer, whatever path led to it
      obtain ⟨trail, hpath, hdepth⟩ := hf.arrival
      obtain ⟨hpath', hdepth'⟩ := hextend trail hpath hdepth
      have hpi : p = index := by
        rcases Slots.get?_change_of_new List.length_replicate hbefore hset with ⟨-, rfl⟩ | hmem
        · exact IndexSet.mem_singleton.mp hp
        · rw [List.eq_of_mem_replicate hmem] at hp
          exact IndexSet.mem_singleton.mp hp
      refine ⟨index :: trail, hpath', hdepth', ?_⟩
      rw [MethodBody.lastProducers_cons hcode, hpi]
      refine Slots.get?_change_replicate _ hbefore fun k hk => ?_
      subst hk
      rw [MethodBody.length_locals_lastProducers, ← hf.length]
      obtain ⟨hlt, -⟩ := List.getElem?_eq_some_iff.mp hset
      simpa [Frame.view] using hlt

/-! ## The invariant -/

/-- A frame was executed, and the result is below the frames of all successors. -/
def HandedOn (m : MethodBody) (s : Exploration) (index : Nat) (f : Frame) : Prop :=
  ∃ i, m.code[index]? = some i ∧ f.Accepts i ∧
    checkedSuccessors m.length index i = .ok (i.successors index) ∧
    ∀ j ∈ i.successors index, ∃ g, s.At j g ∧ (f.after index i).Below g

theorem HandedOn.grown {m : MethodBody} {s s' : Exploration} {index : Nat} {f : Frame}
    (h : HandedOn m s index f) (hgrown : Grown s s') : HandedOn m s' index f := by
  obtain ⟨i, hcode, haccepts, hchecked, hsucc⟩ := h
  refine ⟨i, hcode, haccepts, hchecked, fun j hj => ?_⟩
  obtain ⟨g, hg, hbelow⟩ := hsucc j hj
  obtain ⟨k, hk, hgk⟩ := hgrown.above j g hg
  exact ⟨k, hk, hbelow.trans hgk⟩

/-- The edges out of an instruction are recorded. -/
def Recorded (s : Exploration) (index : Nat) : Prop := s.edges.recorded.contains index = true

/-- What holds at every moment of an exploration, in whatever order it goes. -/
structure Invariant (m : MethodBody) (s : Exploration) : Prop where
  size : s.frames.size = m.length
  entry : 0 < m.length → ∃ f, s.At 0 f ∧ (Frame.entry m.maxLocals).Below f
  justified : ∀ index f, s.At index f → Justified m index f
  settled : ∀ index f, s.At index f → index ∈ s.worklist ∨ HandedOn m s index f ∧ s.Recorded index
  tables : s.edges.Tabulates m
  recorded : ∀ index, s.Recorded index → ∃ f, s.At index f

theorem not_at_bare {m : MethodBody} {j : Nat} {f : Frame} : ¬ (bare m).At j f := by
  unfold At bare
  simp [Array.getElem?_replicate]

theorem size_frames_start (m : MethodBody) : (start m).frames.size = m.length := by
  simp [start, update, bare]

/-- At the start there is the entry frame and no other. -/
theorem eq_entry_of_at_start {m : MethodBody} {index : Nat} {f : Frame}
    (h : (start m).At index f) : index = 0 ∧ f = .entry m.maxLocals := by
  rcases at_of_at_update h with hfirst | hbare
  · exact hfirst
  · exact absurd hbare not_at_bare

theorem invariant_start (m : MethodBody) : Invariant m (start m) where
  size := size_frames_start m
  entry := by
    intro hpos
    have hsize : 0 < (bare m).frames.size := by simpa [bare] using hpos
    exact ⟨.entry m.maxLocals, at_update _ hsize, .refl _⟩
  justified := by
    intro index f hf
    have hlt : index < m.length := size_frames_start m ▸ (Array.getElem?_eq_some_iff.mp hf).1
    obtain ⟨rfl, rfl⟩ := eq_entry_of_at_start hf
    exact .entry hlt
  settled := by
    intro index f hf
    have hlt : index < m.length := size_frames_start m ▸ (Array.getElem?_eq_some_iff.mp hf).1
    obtain ⟨rfl, rfl⟩ := eq_entry_of_at_start hf
    exact Or.inl (mem_worklist_update _ (by simpa [bare] using hlt))
  tables := Edges.tabulates_none m
  recorded := by
    intro index hrecorded
    have hnone := BitSet.contains_empty m.length index
    exact absurd (hnone.symm.trans hrecorded) Bool.false_ne_true

/-- A visit to an instruction without a fault hands the frame on. -/
theorem visit_of_not_fault {m : MethodBody} {s : Exploration} {index : Nat} {f : Frame}
    {i : Instruction} (hf : s.At index f) (hcode : m.code[index]? = some i)
    (hlength : f.locals.length = m.maxLocals) (hfault : ¬ m.Fault index f.depth) :
    s.visit m index = deliverAll (f.after index i) (i.successors index).toList
      (s.record index (i.successors index)) := by
  obtain ⟨haccepts, hchecked⟩ := (not_fault_iff_accepts hcode hlength).mp hfault
  have hjoin : s.frames[index]?.join = some f := Option.join_eq_some_iff.mpr hf
  have hexec : f.execute index i = .ok (f.after index i) :=
    Frame.execute_eq_ok_iff.mpr ⟨haccepts, rfl⟩
  simp only [visit, hjoin, hcode, hexec, hchecked]

/-- A visit that succeeds finds no fault. -/
theorem not_fault_of_visit {m : MethodBody} {s s' : Exploration} {index : Nat} {f : Frame}
    {i : Instruction} (hf : s.At index f) (hcode : m.code[index]? = some i)
    (hlength : f.locals.length = m.maxLocals) (h : s.visit m index = .ok s') :
    ¬ m.Fault index f.depth := by
  have hjoin : s.frames[index]?.join = some f := Option.join_eq_some_iff.mpr hf
  rw [not_fault_iff_accepts hcode hlength]
  simp only [visit, hjoin, hcode] at h
  split at h
  · simp at h
  · next after hexec =>
    split at h
    · simp at h
    · next targets hchecked =>
      obtain ⟨-, -, rfl⟩ := checkedSuccessors_eq_ok_iff.mp hchecked
      exact ⟨(Frame.execute_eq_ok_iff.mp hexec).1, hchecked⟩

/-- A visit to an instruction without a frame does nothing. -/
theorem visit_of_no_frame {m : MethodBody} {s : Exploration} {index : Nat}
    (h : ∀ f, ¬ s.At index f) : s.visit m index = .ok s := by
  have hjoin : s.frames[index]?.join = none := by
    cases hj : s.frames[index]?.join with
    | none => rfl
    | some f => exact absurd (Option.join_eq_some_iff.mp hj) (h f)
  simp only [visit, hjoin]

theorem Invariant.exists_code {m : MethodBody} {s : Exploration} (h : Invariant m s)
    {index : Nat} {f : Frame} (hf : s.At index f) : ∃ i, m.code[index]? = some i := by
  refine MethodBody.exists_code ?_
  rw [← h.size]
  exact (Array.getElem?_eq_some_iff.mp hf).1

/-- The edges of an instruction without a fault are recorded as they are. -/
theorem Invariant.tables_record {m : MethodBody} {s : Exploration} (h : Invariant m s)
    {index depth : Nat} {i : Instruction} (hcode : m.code[index]? = some i)
    (hfault : ¬ m.Fault index depth) :
    (s.edges.record index (i.successors index).toList).Tabulates m := by
  have hedge : ∀ j, j ∈ (i.successors index).toList ↔ m.Edge index j := fun j =>
    (MethodBody.edge_iff hcode).symm
  exact h.tables.record (Array.getElem?_eq_some_iff.mp hcode).1 hedge fun j hj =>
    MethodBody.lt_length_of_edge hfault ((hedge j).mp hj)

/-- A visit keeps the invariant. -/
theorem Invariant.visit {m : MethodBody} {s s' : Exploration} (h : Invariant m s) {index : Nat}
    (hv : (s.without index).visit m index = .ok s') : Invariant m s' := by
  -- taking an instruction off the list matters for that one only
  have hkept : ∀ j f, s.At j f → j ≠ index →
      j ∈ (s.without index).worklist ∨ HandedOn m (s.without index) j f ∧ s.Recorded j := by
    intro j f hf hne
    rcases h.settled j f hf with hmem | hon
    · exact Or.inl ((List.mem_erase_of_ne hne).mpr hmem)
    · exact Or.inr hon
  by_cases hframe : ∃ f, s.At index f
  · obtain ⟨f, hf⟩ := hframe
    obtain ⟨i, hcode⟩ := h.exists_code hf
    have hjust := h.justified index f hf
    have hfault := not_fault_of_visit (s := s.without index) hf hcode hjust.length hv
    obtain ⟨haccepts, hchecked⟩ := (not_fault_iff_accepts hcode hjust.length).mp hfault
    rw [visit_of_not_fault (s := s.without index) hf hcode hjust.length hfault] at hv
    have hrange : ∀ j ∈ i.successors index, j < (s.without index).frames.size := by
      intro j hj
      show j < s.frames.size
      rw [h.size]
      exact MethodBody.lt_length_of_edge hfault ((MethodBody.edge_iff hcode).mpr hj)
    have hsized : (s.without index).Sized m.maxLocals := fun j g hg => (h.justified j g hg).length
    have hafter : (f.after index i).locals.length = m.maxLocals := by
      rw [Frame.length_locals_after]
      exact hjust.length
    obtain ⟨hdelivered, hsucc⟩ := deliverAll_eq_ok hafter _
      ((s.without index).record index (i.successors index)) _ hsized hrange hv
    have hgrown : Grown (s.without index) s' := (grown_record _ _ _).trans hdelivered
    -- the edges of the instruction are recorded now, and no others that were not
    have hedges : s'.edges = s.edges.record index (i.successors index).toList :=
      edges_of_deliverAll _ _ _ hv
    have hindex : index < s.edges.recorded.capacity := by
      rw [h.tables.capacity]
      exact (Array.getElem?_eq_some_iff.mp hcode).1
    have hrecorded : ∀ j, s'.Recorded j ↔ j = index ∨ s.Recorded j := by
      intro j
      unfold Recorded
      rw [hedges, Edges.contains_recorded_record hindex, Bool.or_eq_true, decide_eq_true_iff]
    refine ⟨hgrown.size.trans h.size, fun hpos => ?_, ?_, ?_, ?_, fun j hj => ?_⟩
    · obtain ⟨f₀, hf₀, hbelow⟩ := h.entry hpos
      obtain ⟨g, hg, hfg⟩ := hgrown.above 0 f₀ hf₀
      exact ⟨g, hg, hbelow.trans hfg⟩
    · refine (forall_of_deliverAll _ ((s.without index).record index (i.successors index)) ?_
        h.justified ?_).1 s' hv
      · exact fun target g hg hin hdepth => hg.join hin hdepth
      · exact fun j hj => hjust.after hcode hfault ((MethodBody.edge_iff hcode).mpr hj)
    · intro j g hg
      -- a frame that has changed is on the list again
      rcases hgrown.listed j with hsame | hmem
      · have hgs : s.At j g := hsame.symm.trans hg
        by_cases hj : j = index
        · subst hj
          rw [At.unique hgs hf]
          exact Or.inr ⟨⟨i, hcode, haccepts, hchecked, hsucc⟩, (hrecorded j).mpr (Or.inl rfl)⟩
        · rcases hkept j g hgs hj with hmem | ⟨hon, hold⟩
          · exact Or.inl (hgrown.kept j hmem)
          · exact Or.inr ⟨hon.grown hgrown, (hrecorded j).mpr (Or.inr hold)⟩
      · exact Or.inl hmem
    · rw [hedges]
      exact h.tables_record hcode hfault
    · have hold : ∃ g, s.At j g := by
        rcases (hrecorded j).mp hj with rfl | hj
        · exact ⟨f, hf⟩
        · exact h.recorded j hj
      obtain ⟨g, hg⟩ := hold
      obtain ⟨k, hk, -⟩ := hgrown.above j g hg
      exact ⟨k, hk⟩
  · have hnone : ∀ f, ¬ (s.without index).At index f := fun f hf => hframe ⟨f, hf⟩
    rw [visit_of_no_frame hnone] at hv
    rw [← Except.ok.inj hv]
    refine ⟨h.size, h.entry, h.justified, fun j f hf => hkept j f hf fun hj => ?_, h.tables,
      h.recorded⟩
    subst hj
    exact hframe ⟨f, hf⟩

/-- A visit fails only in a method that is ill formed. -/
theorem Invariant.illFormed {m : MethodBody} {s : Exploration} (h : Invariant m s) {index : Nat}
    {e : FrameError} (hv : (s.without index).visit m index = .error e) : m.IllFormed := by
  by_cases hframe : ∃ f, s.At index f
  · obtain ⟨f, hf⟩ := hframe
    obtain ⟨i, hcode⟩ := h.exists_code hf
    have hjust := h.justified index f hf
    obtain ⟨trail, hpath, hdepth⟩ := hjust.arrival
    by_cases hfault : m.Fault index f.depth
    · exact ⟨trail, index, hpath, Or.inl (hdepth ▸ hfault)⟩
    · -- only a delivery can have failed, and two paths arrive at its target with different depths
      rw [visit_of_not_fault (s := s.without index) hf hcode hjust.length hfault] at hv
      have hedge : ∀ j ∈ i.successors index, m.Edge index j := fun j hj =>
        (MethodBody.edge_iff hcode).mpr hj
      have herror := (forall_of_deliverAll _ ((s.without index).record index (i.successors index))
        (fun target g hg hin hdepth => Justified.join hg hin hdepth) h.justified
        fun j hj => hjust.after hcode hfault (hedge j hj)).2 e hv
      obtain ⟨target, present, htarget, hpresent, hne⟩ := herror
      obtain ⟨trail₁, hpath₁, hdepth₁⟩ := hpresent.arrival
      obtain ⟨trail₂, hpath₂, hdepth₂⟩ :=
        (hjust.after hcode hfault (hedge target htarget)).arrival
      refine ⟨trail₂, target, hpath₂, Or.inr ⟨trail₁, hpath₁, ?_⟩⟩
      rw [hdepth₁, hdepth₂]
      exact hne
  · have hnone : ∀ f, ¬ (s.without index).At index f := fun f hf => hframe ⟨f, hf⟩
    rw [visit_of_no_frame hnone] at hv
    simp at hv

/-- An exploration ends at a fixed point that paths justify, or finds the method ill formed. -/
theorem Explores.result {m : MethodBody} {s : Exploration} {r : Except FrameError Exploration}
    (hr : Explores m s r) (h : Invariant m s) :
    (∀ s', r = .ok s' → Invariant m s' ∧ s'.worklist = []) ∧
      (∀ e, r = .error e → m.IllFormed) := by
  induction hr with
  | done hlist =>
    refine ⟨fun s' hs' => ?_, fun e he => by simp at he⟩
    rw [← Except.ok.inj hs']
    exact ⟨h, hlist⟩
  | failed _ hv => exact ⟨fun s' hs' => by simp at hs', fun _ _ => h.illFormed hv⟩
  | next _ hv _ ih => exact ih (h.visit hv)

end Exploration

end CallFold
