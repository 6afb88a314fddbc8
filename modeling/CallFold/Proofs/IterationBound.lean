import CallFold.Proofs.Worklist

/-!
# How long the worklist lasts

The computation of frames takes one instruction off the list at a time. This file bounds how often
it does so, by a number that can be read off the method.

An instruction comes back to the list only if its frame is new or some set of producers in it has
grown (`Renewed`). Frames that are there can grow by as many producers as are missing from them. For
a frame that is not there yet, one has to know how deep its stack can be: every instruction adds at
most one value, so the depth of a frame is less than the number of instructions that have one
(`Regular.shallow`). Hence `remaining`, which counts all producers that can still be added and the
instructions on the list, goes down with every iteration.

* `FrameGraph.build_within_bound`: the loop stops after so many iterations, whatever the method.
-/

namespace CallFold

/-! ## How many producers a frame can miss -/

theorem IndexSet.missing_le (n : Nat) (s : IndexSet) : s.missing n ≤ n := by
  unfold missing
  calc (List.range n).countP _ ≤ (List.range n).length := List.countP_le_length
    _ = n := List.length_range

theorem Frame.missing_le (n : Nat) (f : Frame) :
    f.missing n ≤ n * (f.locals.length + f.depth) := by
  have hlocals := totalWeight_le fun s (_ : s ∈ f.locals) => s.missing_le n
  have hstack := totalWeight_le fun s (_ : s ∈ f.stack) => s.missing_le n
  unfold missing missingSlots depth
  rw [Nat.mul_add]
  omega

/-- No instruction leaves more than one value more than there was. -/
theorem Instruction.pushes_le (i : Instruction) : i.pushes ≤ i.pops + 1 := by
  cases i with
  | invoke callee =>
    show callee.descriptor.returnsValue.toNat ≤ callee.argumentSlots + 1
    have h := Bool.toNat_le callee.descriptor.returnsValue
    omega
  | _ => simp [pushes, pops]

theorem Frame.depth_after_le {f : Frame} {i : Instruction} (index : Nat) (h : f.Accepts i) :
    (f.after index i).depth ≤ f.depth + 1 := by
  have hdepth := h.depth
  have hpushes := i.pushes_le
  rw [depth_after h]
  omega

/-! ## Frames that grow strictly -/

namespace Frame

/-- A frame is contained in another, and some set of producers in it strictly. -/
structure StrictlyBelow (f g : Frame) : Prop where
  below : f.Below g
  strict : ∃ place set set' p, f.view.get? place = some set ∧ g.view.get? place = some set' ∧
    p ∈ set' ∧ p ∉ set

theorem Below.exists_get? {f g : Frame} {place : Place} {set' : IndexSet} (h : f.Below g)
    (hset' : g.view.get? place = some set') :
    ∃ set, f.view.get? place = some set ∧ set ⊆ set' := by
  cases place with
  | slot index => exact Slots.forall₂_getElem? (List.Forall₂.flip h.locals) hset'
  | stack below => exact Slots.forall₂_getElem? (List.Forall₂.flip h.stack) hset'

theorem StrictlyBelow.trans_below {f g k : Frame} (h : f.StrictlyBelow g) (h' : g.Below k) :
    f.StrictlyBelow k := by
  obtain ⟨hfg, place, set, set', p, hset, hset', hp, hnew⟩ := h
  obtain ⟨set'', hset'', hsub⟩ := Slots.Related.get? h' hset'
  exact ⟨hfg.trans h', place, set, set'', p, hset, hset'', hsub p hp, hnew⟩

theorem Below.trans_strictly {f g k : Frame} (h : f.Below g) (h' : g.StrictlyBelow k) :
    f.StrictlyBelow k := by
  obtain ⟨hgk, place, set, set', p, hset, hset', hp, hnew⟩ := h'
  obtain ⟨set₀, hset₀, hsub⟩ := h.exists_get? hset
  exact ⟨h.trans hgk, place, set₀, set', p, hset₀, hset', hp, fun hold => hnew (hsub p hold)⟩

theorem exists_of_growsSlots {l l' : List IndexSet} (h : growsSlots l l' = true) :
    ∃ (k : Nat) (s t : IndexSet) (p : Nat),
      l[k]? = some s ∧ (joinSlots l l')[k]? = some t ∧ p ∈ t ∧ p ∉ s := by
  fun_induction growsSlots l l' with
  | case1 s rest t rest' ih =>
    rcases Bool.or_eq_true_iff.mp h with h | h
    · obtain ⟨p, hp, hnew⟩ := IndexSet.grows_eq_true_iff.mp h
      exact ⟨0, s, s.union t, p, rfl, rfl, IndexSet.mem_union.mpr (Or.inr hp), hnew⟩
    · obtain ⟨k, s', t', p, hs, ht, hp, hnew⟩ := ih h
      exact ⟨k + 1, s', t', p, hs, ht, hp, hnew⟩
  | case2 => simp at h

theorem strictlyBelow_join {f g : Frame} (h : f.grows g = true) : f.StrictlyBelow (f.join g) := by
  refine ⟨below_join_left f g, ?_⟩
  rcases Bool.or_eq_true_iff.mp h with h | h
  · obtain ⟨k, s, t, p, hs, ht, hp, hnew⟩ := exists_of_growsSlots h
    exact ⟨.slot k, s, t, p, hs, ht, hp, hnew⟩
  · obtain ⟨k, s, t, p, hs, ht, hp, hnew⟩ := exists_of_growsSlots h
    exact ⟨.stack k, s, t, p, hs, ht, hp, hnew⟩

end Frame

namespace Exploration

variable {m : MethodBody} {s s' : Exploration} {index : Nat}

/-! ## The measure -/

theorem length_worklist_update_le (s : Exploration) (index : Nat) (f : Frame) :
    (s.update index f).worklist.length ≤ s.worklist.length + 1 :=
  s.agenda.length_push_le index

/-- One more than the number of producers that a frame of a method can miss. -/
def room (m : MethodBody) : Nat := m.length * (m.maxLocals + m.length) + 1

/--
How many producers can still be added to the frames, those of frames that are not there yet
included, and how many instructions are on the list.
-/
def remaining (m : MethodBody) (s : Exploration) : Nat :=
  s.unreached * room m + s.slack m.length + s.worklist.length

/-- What holds at every moment, of malformed methods too. -/
structure Regular (m : MethodBody) (s : Exploration) : Prop where
  size : s.frames.size = m.length
  bounded : s.Bounded m.length
  sized : s.Sized m.maxLocals
  shallow : ∀ j f, s.At j f → f.depth + s.unreached < m.length

theorem Regular.without (h : Regular m s) (index : Nat) : Regular m (s.without index) where
  size := h.size
  bounded := h.bounded
  sized := h.sized
  shallow := h.shallow

theorem Regular.record (h : Regular m s) (index : Nat) (targets : IndexSet) :
    Regular m (s.record index targets) where
  size := h.size
  bounded := h.bounded
  sized := h.sized
  shallow := h.shallow

theorem remaining_without {rest : List Nat} (hlist : s.worklist = index :: rest) :
    (s.without index).remaining m + 1 = s.remaining m := by
  have hlength : (s.without index).worklist.length + 1 = s.worklist.length := by
    show (s.worklist.erase index).length + 1 = s.worklist.length
    rw [hlist, List.erase_cons_head]
    rfl
  show s.unreached * room m + s.slack m.length + (s.without index).worklist.length + 1 = _
  unfold remaining
  omega

/-- What holds of a frame that is handed on. -/
structure Admits (m : MethodBody) (s : Exploration) (incoming : Frame) : Prop where
  bounded : incoming.Bounded m.length
  length : incoming.locals.length = m.maxLocals
  depth : incoming.depth + s.unreached ≤ m.length

theorem Admits.missing_lt {incoming : Frame} (h : Admits m s incoming) :
    incoming.missing m.length < room m := by
  have hmissing := incoming.missing_le m.length
  have hdepth : incoming.depth ≤ m.length := by
    have := h.depth
    omega
  have hmul : m.length * (incoming.locals.length + incoming.depth) ≤
      m.length * (m.maxLocals + m.length) := by
    rw [h.length]
    exact Nat.mul_le_mul_left _ (by omega)
  unfold room
  omega

/-- A first frame uses up the room that was kept for it. -/
theorem remaining_update_new {incoming : Frame} (hin : Admits m s incoming)
    (h : s.frames[index]? = some none) :
    (s.update index incoming).remaining m ≤ s.remaining m := by
  have hunreached := unreached_update_new incoming h
  have hslack := slack_update m.length incoming h
  have hlist := length_worklist_update_le s index incoming
  have hmissing := hin.missing_lt
  unfold remaining
  -- The instruction goes on the list, for which `room` has one more than can be missing.
  rw [← hunreached, Nat.succ_mul]
  simp only [frameSlack] at hslack
  omega

/-- A frame that grows misses fewer producers. -/
theorem remaining_update_grown {present f : Frame}
    (h : s.frames[index]? = some (some present))
    (hlt : f.missing m.length < present.missing m.length) :
    (s.update index f).remaining m ≤ s.remaining m := by
  have hunreached := unreached_update_grown f h
  have hslack := slack_update m.length f h
  have hlist := length_worklist_update_le s index f
  unfold remaining
  rw [hunreached]
  simp only [frameSlack] at hslack
  omega

/-! ## What a delivery does to the measure and to the list -/

/-- The frame of an instruction is new, or some set of producers in it has strictly grown. -/
inductive Renewed (s s' : Exploration) (j : Nat) : Prop where
  | created {g : Frame} (hnone : s.frames[j]? = some none) (hg : s'.At j g)
  | grown {f g : Frame} (hf : s.At j f) (hg : s'.At j g) (hfg : f.StrictlyBelow g)

theorem Renewed.later {s'' : Exploration} {j : Nat} (h : Renewed s s' j) (h' : Grown s' s'') :
    Renewed s s'' j := by
  cases h with
  | created hnone hg =>
    obtain ⟨k, hk, -⟩ := h'.above j _ hg
    exact .created hnone hk
  | grown hf hg hfg =>
    obtain ⟨k, hk, hgk⟩ := h'.above j _ hg
    exact .grown hf hk (hfg.trans_below hgk)

theorem Renewed.earlier {s'' : Exploration} {j : Nat} (h : Grown s s') (h' : Renewed s' s'' j) :
    Renewed s s'' j := by
  -- What has no frame at first and grows later is new on the whole.
  have hold : ∀ {o}, s'.frames[j]? = some o →
      s.frames[j]? = some none ∨ ∃ e, s.At j e := by
    intro o ho
    have hj : j < s.frames.size := h.size ▸ (Array.getElem?_eq_some_iff.mp ho).1
    cases he : s.frames[j] with
    | none => exact Or.inl (Array.getElem?_eq_some_iff.mpr ⟨hj, he⟩)
    | some e => exact Or.inr ⟨e, Array.getElem?_eq_some_iff.mpr ⟨hj, he⟩⟩
  cases h' with
  | created hnone hg =>
    rcases hold hnone with hs | ⟨e, he⟩
    · exact .created hs hg
    · obtain ⟨k, hk, -⟩ := h.above j e he
      have heq : some (some k) = some none := hk.symm.trans hnone
      simp at heq
  | grown hf hg hfg =>
    rcases hold hf with hs | ⟨e, he⟩
    · exact .created hs hg
    · obtain ⟨k, hk, hek⟩ := h.above j e he
      rw [hk.unique hf] at hek
      exact .grown he hg (hek.trans_strictly hfg)

/-- What lies between two moments at which no instruction is taken off the list. -/
structure Continues (m : MethodBody) (s s' : Exploration) : Prop where
  grown : Grown s s'
  unreached : s'.unreached ≤ s.unreached
  remaining : s'.remaining m ≤ s.remaining m
  listed : ∀ j ∈ s'.worklist, j ∈ s.worklist ∨ Renewed s s' j

theorem Continues.refl (m : MethodBody) (s : Exploration) : Continues m s s where
  grown := .refl s
  unreached := Nat.le_refl _
  remaining := Nat.le_refl _
  listed := fun _ hj => Or.inl hj

theorem Continues.trans {s'' : Exploration} (h : Continues m s s') (h' : Continues m s' s'') :
    Continues m s s'' where
  grown := h.grown.trans h'.grown
  unreached := Nat.le_trans h'.unreached h.unreached
  remaining := Nat.le_trans h'.remaining h.remaining
  listed := by
    intro j hj
    rcases h'.listed j hj with hj | hrenewed
    · rcases h.listed j hj with hj | hrenewed
      · exact Or.inl hj
      · exact Or.inr (hrenewed.later h'.grown)
    · exact Or.inr (hrenewed.earlier h.grown)

/-- To record edges leaves the frames and the list as they are. -/
theorem continues_record (m : MethodBody) (s : Exploration) (index : Nat) (targets : IndexSet) :
    Continues m s (s.record index targets) where
  grown := grown_record s index targets
  unreached := Nat.le_refl _
  remaining := Nat.le_refl _
  listed := fun _ hj => Or.inl hj

theorem Admits.of_continues {incoming : Frame} (hin : Admits m s incoming) (h : Continues m s s') :
    Admits m s' incoming where
  bounded := hin.bounded
  length := hin.length
  depth := Nat.le_trans (Nat.add_le_add_left h.unreached _) hin.depth

theorem mem_worklist_of_update {j : Nat} {f : Frame} (h : j ∈ (s.update index f).worklist) :
    j ∈ s.worklist ∨ j = index :=
  Agenda.mem_of_mem_push h

theorem Regular.update {f : Frame} (hs : Regular m s) (hbounded : f.Bounded m.length)
    (hlength : f.locals.length = m.maxLocals)
    (hunreached : (s.update index f).unreached ≤ s.unreached)
    (hdepth : f.depth + (s.update index f).unreached < m.length) :
    Regular m (s.update index f) where
  size := by
    show (s.frames.setIfInBounds index (some f)).size = _
    rw [Array.size_setIfInBounds, hs.size]
  bounded := bounded_update hs.bounded hbounded
  sized := by
    intro j g hg
    rcases at_of_at_update hg with ⟨-, rfl⟩ | hg
    · exact hlength
    · exact hs.sized j g hg
  shallow := by
    intro j g hg
    rcases at_of_at_update hg with ⟨-, rfl⟩ | hg
    · exact hdepth
    · have hshallow := hs.shallow j g hg
      omega

/-- The first frame of an instruction. -/
theorem Regular.update_new {incoming : Frame} (hs : Regular m s) (hin : Admits m s incoming)
    (h : s.frames[index]? = some none) :
    Regular m (s.update index incoming) ∧ Continues m s (s.update index incoming) := by
  have hindex : index < s.frames.size := (Array.getElem?_eq_some_iff.mp h).1
  have hunreached := unreached_update_new incoming h
  have habsent : ∀ g, s.At index g → g.Below incoming := by
    intro g hg
    have heq : some (some g) = some none := hg.symm.trans h
    simp at heq
  constructor
  · -- One more instruction has a frame, which pays for the value that may have been pushed.
    have hdepth := hin.depth
    exact hs.update hin.bounded hin.length (by omega) (by omega)
  · refine ⟨grown_update hindex habsent, by omega, remaining_update_new hin h, fun j hj => ?_⟩
    refine (mem_worklist_of_update hj).imp_right ?_
    rintro rfl
    exact .created h (at_update _ hindex)

/-- A frame to which producers are added. -/
theorem Regular.update_grown {present incoming : Frame} (hs : Regular m s)
    (hin : Admits m s incoming) (h : s.At index present) (hgrows : present.grows incoming = true) :
    Regular m (s.update index (present.join incoming)) ∧
      Continues m s (s.update index (present.join incoming)) := by
  have hindex : index < s.frames.size := (Array.getElem?_eq_some_iff.mp h).1
  have hbelow : present.Below (present.join incoming) := Frame.below_join_left _ _
  have hunreached := unreached_update_grown (present.join incoming) h
  have hmissing := Frame.missing_join_lt hgrows hin.bounded
  constructor
  · have hbounded : (present.join incoming).Bounded m.length :=
      Frame.bounded_join (bounded_of_getElem? hs.bounded h) hin.bounded
    have hlength : (present.join incoming).locals.length = m.maxLocals :=
      hbelow.length_locals.symm.trans (hs.sized index present h)
    refine hs.update hbounded hlength (Nat.le_of_eq hunreached) ?_
    rw [hunreached, ← hbelow.depth_eq]
    exact hs.shallow index present h
  · refine ⟨grown_update hindex fun g hg => hg.unique h ▸ hbelow, Nat.le_of_eq hunreached,
      remaining_update_grown h hmissing, fun j hj => ?_⟩
    refine (mem_worklist_of_update hj).imp_right ?_
    rintro rfl
    exact .grown h (at_update _ hindex) (Frame.strictlyBelow_join hgrows)

theorem Regular.deliver {target : Nat} {incoming : Frame} (hs : Regular m s)
    (hin : Admits m s incoming) (h : s.deliver incoming target = .ok s') :
    Regular m s' ∧ Continues m s s' := by
  unfold Exploration.deliver at h
  split at h
  · next present hpresent =>
    split at h
    · next merged hmerge =>
      obtain ⟨rfl, hgrows⟩ := merge_eq_ok hmerge
      rw [← Except.ok.inj h]
      exact hs.update_grown hin hpresent hgrows.symm
    · rw [← Except.ok.inj h]
      exact ⟨hs, .refl m s⟩
    · simp at h
  · next hnone =>
    rw [← Except.ok.inj h]
    exact hs.update_new hin hnone
  · rw [← Except.ok.inj h]
    exact ⟨hs, .refl m s⟩

theorem Regular.deliverAll {incoming : Frame} :
    ∀ (targets : List Nat) (s : Exploration), Regular m s → Admits m s incoming →
      Exploration.deliverAll incoming targets s = .ok s' → Regular m s' ∧ Continues m s s'
  | [], s, hs, _, h => by
    rw [← Except.ok.inj h]
    exact ⟨hs, .refl m s⟩
  | target :: rest, s, hs, hin, h => by
    rw [Exploration.deliverAll] at h
    split at h
    · simp at h
    · next s₁ hdeliver =>
      obtain ⟨hs₁, hfirst⟩ := hs.deliver hin hdeliver
      obtain ⟨hs', hrest⟩ := deliverAll rest s₁ hs₁ (hin.of_continues hfirst) h
      exact ⟨hs', hfirst.trans hrest⟩

/-- The frame that an instruction leaves can be handed on. -/
theorem Regular.admits_after {f g : Frame} {i : Instruction} (hs : Regular m s)
    (hf : s.At index f) (hindex : index < m.length) (h : f.execute index i = .ok g) :
    Admits m s g := by
  obtain ⟨haccepts, rfl⟩ := Frame.execute_eq_ok_iff.mp h
  refine ⟨Frame.bounded_execute (bounded_of_getElem? hs.bounded hf) hindex h, ?_, ?_⟩
  · rw [Frame.length_locals_after]
    exact hs.sized index f hf
  · have hdepth := Frame.depth_after_le index haccepts
    have hshallow := hs.shallow index f hf
    omega

theorem Regular.visit (hs : Regular m s) (h : s.visit m index = .ok s') :
    Regular m s' ∧ Continues m s s' := by
  unfold Exploration.visit at h
  split at h
  · next f i hframe hcode =>
    have hindex : index < m.length := (Array.getElem?_eq_some_iff.mp hcode).1
    split at h
    · simp at h
    · next after hexec =>
      have hafter := hs.admits_after (Option.join_eq_some_iff.mp hframe) hindex hexec
      split at h
      · simp at h
      · next targets _ =>
        have hrecord := continues_record m s index targets
        obtain ⟨hs', hcontinues⟩ :=
          (hs.record index targets).deliverAll _ _ (hafter.of_continues hrecord) h
        exact ⟨hs', hrecord.trans hcontinues⟩
  · rw [← Except.ok.inj h]
    exact ⟨hs, .refl m s⟩

/-! ## Iterations -/

/-- One turn of the loop: the first instruction is taken off the list and executed. -/
inductive Iteration (m : MethodBody) (s s' : Exploration) : Prop where
  | take {index : Nat} {rest : List Nat} (hlist : s.worklist = index :: rest)
      (h : (s.without index).visit m index = .ok s')

/-- A number of turns of the loop, one after the other. -/
inductive Iterates (m : MethodBody) : Nat → Exploration → Exploration → Prop where
  | nil (s : Exploration) : Iterates m 0 s s
  | cons {n : Nat} {s s₁ s' : Exploration} (h : Iteration m s s₁) (hrest : Iterates m n s₁ s') :
      Iterates m (n + 1) s s'

/-- The loop stops: the list is empty, or the next instruction cannot be executed. -/
inductive Stops (m : MethodBody) (s : Exploration) : Except FrameError Exploration → Prop where
  | emptied (hlist : s.worklist = []) : Stops m s (.ok s)
  | failed {index : Nat} {rest : List Nat} {e : FrameError} (hlist : s.worklist = index :: rest)
      (h : (s.without index).visit m index = .error e) : Stops m s (.error e)

theorem Regular.iteration (hs : Regular m s) (h : Iteration m s s') :
    Regular m s' ∧ s'.remaining m < s.remaining m ∧
      ∀ j ∈ s'.worklist, j ∈ s.worklist.tail ∨ Renewed s s' j := by
  obtain @⟨index, rest, hlist, hvisit⟩ := h
  obtain ⟨hs', hcontinues⟩ := (hs.without index).visit hvisit
  refine ⟨hs', ?_, ?_⟩
  · have hle := hcontinues.remaining
    have htaken := remaining_without (m := m) hlist
    omega
  · intro j hj
    have htail : s.worklist.tail = (s.without index).worklist := by
      show _ = s.worklist.erase index
      rw [hlist, List.erase_cons_head]
      rfl
    rw [htail]
    refine (hcontinues.listed j hj).imp_right fun hrenewed => ?_
    cases hrenewed with
    | created hnone hg => exact .created hnone hg
    | grown hf hg hfg => exact .grown hf hg hfg

theorem Regular.iterates {n : Nat} (hs : Regular m s) (h : Iterates m n s s') :
    Regular m s' ∧ n + s'.remaining m ≤ s.remaining m := by
  induction h with
  | nil s => exact ⟨hs, by omega⟩
  | cons hfirst _ ih =>
    obtain ⟨hs₁, hlt, -⟩ := hs.iteration hfirst
    obtain ⟨hs', hle⟩ := ih hs₁
    exact ⟨hs', by omega⟩

/-- The exploration is a number of turns, up to where the loop stops. -/
theorem exists_iterates_explore (m : MethodBody) (s : Exploration) (hs : s.Bounded m.length) :
    ∃ n s', Iterates m n s s' ∧ Stops m s' (explore m s hs) := by
  fun_induction explore m s hs with
  | case1 s hs hlist => exact ⟨0, s, .nil s, .emptied hlist⟩
  | case2 s hs index rest hlist e h => exact ⟨0, s, .nil s, .failed hlist h⟩
  | case3 s hs index rest hlist s₁ h ih =>
    obtain ⟨n, s', hrest, hstops⟩ := ih
    exact ⟨n + 1, s', .cons ⟨hlist, h⟩ hrest, hstops⟩

/-! ## The start -/

theorem unreached_bare (m : MethodBody) : (bare m).unreached = m.length := by
  simp [unreached, bare, totalWeight_replicate, frameless]

theorem remaining_bare (m : MethodBody) : (bare m).remaining m = m.length * room m := by
  have hslack : (bare m).slack m.length = 0 := by
    simp [slack, bare, totalWeight_replicate, frameSlack]
  unfold remaining
  rw [unreached_bare, hslack]
  rfl

theorem regular_bare (m : MethodBody) : Regular m (bare m) where
  size := by simp [bare]
  bounded := by
    intro f hf
    simp [bare] at hf
  sized := fun _ _ h => absurd h not_at_bare
  shallow := fun _ _ h => absurd h not_at_bare

theorem admits_entry (m : MethodBody) : Admits m (bare m) (.entry m.maxLocals) where
  bounded := Frame.bounded_entry _ _
  length := by simp [Frame.entry]
  depth := by
    rw [unreached_bare]
    simp [Frame.entry, Frame.depth]

/-- The number of turns that are enough for a method. -/
def iterationBound (m : MethodBody) : Nat := m.length * room m + 1

theorem regular_start (m : MethodBody) :
    Regular m (start m) ∧ (start m).remaining m ≤ iterationBound m := by
  by_cases hempty : m.length = 0
  · -- There is nothing to give the entry frame to.
    have hno : ∀ j f, ¬ (start m).At j f := by
      intro j f hf
      have hlt := size_frames_start m ▸ (Array.getElem?_eq_some_iff.mp hf).1
      omega
    have hframes : (start m).frames.toList = (bare m).frames.toList := by
      simp [start, update, bare, hempty]
    have hlist := length_worklist_update_le (bare m) 0 (.entry m.maxLocals)
    refine ⟨⟨size_frames_start m, bounded_start m, fun j f hf => absurd hf (hno j f),
      fun j f hf => absurd hf (hno j f)⟩, ?_⟩
    have hbare := remaining_bare m
    unfold remaining unreached slack iterationBound at *
    rw [hframes]
    exact Nat.le_trans (Nat.add_le_add_left hlist _) (Nat.le_of_eq (congrArg (· + 1) hbare))
  · have hfirst : (bare m).frames[0]? = some none := by
      simp [bare, Array.getElem?_replicate]
      omega
    obtain ⟨hregular, hcontinues⟩ := (regular_bare m).update_new (admits_entry m) hfirst
    have hle := hcontinues.remaining
    rw [remaining_bare] at hle
    exact ⟨hregular, Nat.le_succ_of_le hle⟩

end Exploration

open Exploration in
/--
The loop that computes frames stops on every method, well formed or not, after at most
`iterationBound` turns. At every moment the producers in the frames are instructions of the method,
every turn leaves less of `remaining`, and what it puts on the list is an instruction whose frame is
new or has strictly grown.
-/
theorem FrameGraph.build_within_bound (m : MethodBody) :
    (∀ n s, Iterates m n (.start m) s →
      s.Bounded m.length ∧ n + s.remaining m ≤ iterationBound m ∧
      ∀ s', Iteration m s s' → s'.remaining m < s.remaining m ∧
        ∀ j ∈ s'.worklist, j ∈ s.worklist.tail ∨ Renewed s s' j) ∧
    ∃ n s r, n ≤ iterationBound m ∧ Iterates m n (.start m) s ∧ Stops m s r ∧
      FrameGraph.build m = r.map (·.graph m) := by
  obtain ⟨hstart, hle⟩ := regular_start m
  constructor
  · intro n s hrun
    obtain ⟨hs, hn⟩ := hstart.iterates hrun
    exact ⟨hs.bounded, Nat.le_trans hn hle, fun s' h => (hs.iteration h).2⟩
  · obtain ⟨n, s, hrun, hstops⟩ := exists_iterates_explore m (.start m) (bounded_start m)
    obtain ⟨-, hn⟩ := hstart.iterates hrun
    refine ⟨n, s, _, by omega, hrun, hstops, ?_⟩
    unfold FrameGraph.build
    cases explore m (.start m) (bounded_start m) with
    | error e => rfl
    | ok s' => rfl

end CallFold
