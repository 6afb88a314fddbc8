import CallFold.Proofs.ConstantValues
import CallFold.Proofs.RoundTrip
import CallFold.Proofs.Tracking
import Mathlib

/-!
# Constant arrays and runs

An array that is found constant at a safe call has the elements that were found each time control
reaches the call, on three conditions that are not checked: the window between the allocation and
the call is passed in a straight line, no value that was looked at can be one that the method
started with, and no array store outside the window has stored to the array (`inferArray_contents`).

Since its allocation the array is in view, because nothing on the way to the call lets it escape. It
holds the elements that were stored in the window (`Filled`): an array store there stores to another
array, or it stores a known element to this one, and no other one there stores the same element.
-/

namespace CallFold.Machine

variable {w : World} {s : Scope} {k : ConstantKind} {o : ArrayOrigin} {site : Nat}
  {list : List k.Value} {init before state : State} {trail recent earlier : List Nat} {f : Frame}
  {x : Nat}

/-! ## Literals -/

/-- What the instructions make that an integer literal is read off. -/
theorem eq_int_of_makes {g : FrameGraph} {p : Nat} {i : Instruction} {n : Int32} {v : Value}
    (hi : g.instruction? p = some i) (hpush : i.PushesInt n) (h : Makes w g.body p v) :
    v = .int n := by
  obtain ⟨c, mem, i', written, filled, mem', hcode, heffect, hmade⟩ := h
  obtain rfl : i = i' := Option.some.inj (hi.symm.trans hcode)
  cases hpush with
  | intConst | bytePush | shortPush =>
    cases heffect
    simpa [Instruction.writtenSlot?] using hmade
  | ldc =>
    cases heffect with
    | ldc hliteral => simp_all [Instruction.writtenSlot?, World.LiteralValue]

/-- An integer that is written in the code is on the stack when the code says so. -/
theorem Run.literal {g : FrameGraph} (hg : g.Solved) (hrun : Run w g.body init trail state)
    (hf : g.frame? state.pc = some f) {below : Nat} {set : IndexSet} {n : Int32}
    (hset : f.view.get? (.stack below) = some set) (hn : g.literalInt? set = some n) :
    state.slots.get? (.stack below) = some (.int n) := by
  obtain ⟨v, hv⟩ := hrun.exists_value hg hf hset
  have hvalue := hrun.get?_source hv
  have hpath := hrun.path hg (hg.length_pos hf)
  obtain ⟨p, i, rfl, hi, hpush⟩ := FrameGraph.literalInt?_eq_some_iff.mp hn
  have hcopy : i.isCopy = false := by cases hpush <;> rfl
  rcases hg.exists_producer hpath hf hset with ⟨-, slot, -, hslot⟩ | hproducer
  · simp at hslot
  · obtain ⟨p', hp', -, earlier, new, i', -, -, hi', hnew, hsource⟩ := hproducer
    obtain rfl := IndexSet.mem_singleton.mp hp'
    obtain rfl : i = i' := Option.some.inj (hi.symm.trans hi')
    rw [hsource, MethodBody.source_cons_of_none hi
      (Instruction.source?_of_not_copy hcopy hnew)] at hvalue
    rw [hv, eq_int_of_makes hi hpush hvalue]

/-! ## What the array holds -/

/-- The stores of the window that were executed have put their elements into the array. -/
def Holds (s : Scope) (k : ConstantKind) (o : ArrayOrigin) (site : Nat) (executed : List Nat)
    (elements : List Value) : Prop :=
  ∀ j ∈ executed, o.allocation ≤ j → j < site →
    ∀ slot element, s.windowEffect k o j = .write slot element →
      ∃ v, elements[slot]? = some v ∧ k.Denotes element v

theorem Holds.cons {elements : List Value} (h : Holds s k o site recent elements) {j : Nat}
    (hj : o.allocation ≤ j → j < site →
      ∀ slot element, s.windowEffect k o j ≠ .write slot element) :
    Holds s k o site (j :: recent) elements := by
  intro i hi hle hlt slot element hwrite
  rcases List.mem_cons.mp hi with rfl | hi
  · exact absurd hwrite (hj hle hlt slot element)
  · exact h i hi hle hlt slot element hwrite

theorem Holds.set (hfound : s.Found k o site list) {elements : List Value}
    (h : Holds s k o site recent elements) {j slot : Nat} {element : k.Value} {v : Value}
    (hle : o.allocation ≤ j) (hlt : j < site) (hwrite : s.windowEffect k o j = .write slot element)
    (hslot : slot < elements.length) (hv : k.Denotes element v) :
    Holds s k o site (j :: recent) (elements.set slot v) := by
  intro i hi hile hilt slot' element' hwrite'
  by_cases heq : i = j
  · -- the same store may be executed again, and stores the same
    subst heq
    obtain ⟨rfl, rfl⟩ := Scope.WindowEffect.write.inj (hwrite.symm.trans hwrite')
    exact ⟨v, List.getElem?_set_self hslot, hv⟩
  · have hne := hfound.once j i hle hlt hile hilt (Ne.symm heq) _ _ _ _ hwrite hwrite'
    rw [List.getElem?_set_ne hne]
    exact h i (List.mem_of_ne_of_mem heq hi) hile hilt slot' element' hwrite'

/-- Once every store of the window was executed, the array has the elements that were found. -/
theorem Holds.forall₂ (hfound : s.Found k o site list) {elements : List Value}
    (hlength : elements.length = o.length) (h : Holds s k o site recent elements)
    (hall : ∀ j slot element, o.allocation ≤ j → j < site →
      s.windowEffect k o j = .write slot element → j ∈ recent) :
    List.Forall₂ k.Denotes list elements := by
  refine List.forall₂_iff_get.mpr ⟨hfound.length.trans hlength.symm, fun slot hslot _ => ?_⟩
  obtain ⟨j, hle, hlt, hwrite⟩ := hfound.written slot _ (List.getElem?_eq_getElem hslot)
  obtain ⟨v, hv, hdenotes⟩ := h j (hall j slot _ hle hlt hwrite) hle hlt slot _ hwrite
  obtain ⟨_, rfl⟩ := List.getElem?_eq_some_iff.mp hv
  exact hdenotes

/-! ## From the allocation to the call -/

/-- What is known of a window in which an array was found constant for a safe call. -/
structure Judged (s : Scope) (k : ConstantKind) (o : ArrayOrigin) (site : Nat)
    (list : List k.Value) : Prop extends s.Found k o site list where
  solved : s.graph.Solved
  allocation : ∃ element f, s.graph.node? o.allocation = some (.newArray element, f) ∧
    s.graph.literalLength? f = some o.length
  call : ∃ callee, s.graph.instruction? site = some (.invoke callee) ∧
    s.safeCalls.contains callee.signature = true
  entryFree : ∀ j slot element, o.allocation ≤ j → j < site →
    s.windowEffect k o j = .write slot element →
    s.graph.EntryFree j (.stack 2) ∧ s.graph.EntryFree j (.stack 0)

/-- The array that was allocated last is in view and holds what the window has stored since. -/
structure Filled (s : Scope) (k : ConstantKind) (o : ArrayOrigin) (site : Nat)
    (recent earlier : List Nat) (state : State) (x : Nat) : Prop where
  tracks : Tracks s.graph.body x earlier.length o.allocation (recent ++ o.allocation :: earlier)
    state
  array : ∃ elements, state.memory.heap x = some (.array elements) ∧
    elements.length = o.length ∧ Holds s k o site recent elements

/-- The last step of a run. -/
theorem Run.exists_step {m : MethodBody} {j : Nat} (h : Run w m init (j :: trail) state) :
    ∃ before, Run w m init trail before ∧ before.pc = j ∧ Step w m before state := by
  cases h with
  | step hrun hstep => exact ⟨_, hrun, rfl, hstep⟩

theorem Step.exists_code {m : MethodBody} (h : Step w m before state) :
    ∃ i, m.code[before.pc]? = some i := by
  cases h with
  | execute hcode _ _ => exact ⟨_, hcode⟩

namespace Judged

/-- The allocation starts with an array of the right length. -/
theorem allocate (h : Judged s k o site list) (hrun : Run w s.graph.body init earlier before)
    (hpc : before.pc = o.allocation) (hstep : Step w s.graph.body before state) :
    ∃ x, Filled s k o site [] earlier state x := by
  obtain ⟨element, f, hnode, hlength⟩ := h.allocation
  obtain ⟨hi, hf⟩ := FrameGraph.node?_eq_some_iff.mp hnode
  rw [← hpc] at hi hf
  obtain ⟨x, n, length, rest, hstack, hn, hcell, htracks⟩ := tracks_of_newArray hi hstep earlier
  simp only [FrameGraph.literalLength?, bind, Option.bind_eq_some_iff] at hlength
  obtain ⟨top, htop, n', hliteral, hn'⟩ := hlength
  have hset : f.view.get? (.stack 0) = some top := htop
  have hvalue := hrun.literal h.solved hf hset hliteral
  obtain rfl : n = n' := by simpa [Slots.get?, hstack] using hvalue
  obtain rfl : length = o.length := Option.some.inj (hn.symm.trans hn')
  rw [hpc] at htracks
  exact ⟨x, htracks, _, hcell, List.length_replicate, by simp [Holds]⟩

/-- Nothing on the way to the call leaks the array, and neither does the call. -/
theorem not_leaks (h : Judged s k o site list) {time : Nat}
    (hrun : Run w s.graph.body init trail before)
    (htracks : Tracks s.graph.body x time o.allocation trail before)
    (hreaches : Reaches s.graph.length s.graph.predecessors [site] before.pc) {i : Instruction}
    (hi : s.graph.instruction? before.pc = some i) : ¬ Leaks s.safeCalls before.slots x i := by
  have hpath := hrun.path h.solved (MethodBody.length_pos_of_code hi)
  obtain ⟨f, hf, hdepth, -⟩ := h.solved.covers hpath
  by_cases hsite : before.pc = site
  · obtain ⟨callee, hcall, hsafe⟩ := h.call
    rw [hsite] at hi
    obtain rfl := Option.some.inj (hi.symm.trans hcall)
    rintro ⟨hother, -⟩
    rw [hsafe] at hother
    simp at hother
  · exact htracks.not_leaks h.solved hpath hf (hrun.length_stack.trans hdepth.symm)
      (Scope.escapesAt_of_escapes h.kept hreaches hsite) hi

/-- A store that was taken to write an element writes it to the array. -/
theorem write (h : Judged s k o site list) (hw : w.Agrees s) (hrecent : o.allocation ∉ recent)
    (hrun : Run w s.graph.body init (recent ++ o.allocation :: earlier) before)
    (hstep : Step w s.graph.body before state)
    (hi : s.graph.instruction? before.pc = some .arrayStore)
    (hf : s.graph.frame? before.pc = some f) (hle : o.allocation ≤ before.pc)
    (hlt : before.pc < site) {slot : Nat} {element : k.Value}
    (heffect : s.windowEffect k o before.pc = .write slot element)
    (hstore : s.storeEffect k o f = .write slot element)
    (htracks : Tracks s.graph.body x earlier.length o.allocation
      (recent ++ o.allocation :: earlier) before)
    {elements : List Value} (hcell : before.memory.heap x = some (.array elements)) :
    ∃ v, slot < elements.length ∧ k.Denotes element v ∧
      state.memory.heap x = some (.array (elements.set slot v)) := by
  have hg := h.solved
  have hpath := hrun.path hg (hg.length_pos hf)
  obtain ⟨v, n, address, index, stored, rest, hstack, hstored, hindex, hlt', hmemory⟩ :=
    hstep.heap_arrayStore hi
  have hreference : before.slots.get? (.stack 2) = some (.ref address) := by
    simp [Slots.get?, hstack]
  have hvalue : before.slots.get? (.stack 0) = some v := by simp [Slots.get?, hstack]
  obtain ⟨reference, position, value, n', h₂, h₁, h₀, hmust, hliteral, hslot, hinfer⟩ :=
    Scope.storeEffect_eq_write hstore
  obtain ⟨hfree₂, hfree₀⟩ := h.entryFree _ slot element hle hlt heffect
  -- the reference is to the array that was allocated last
  obtain ⟨hleads, _, hnew⟩ := FrameGraph.leads_of_traceAllocation hmust
  have hsource := hg.source_eq_latest hfree₂ hleads hnew rfl hpath hrecent hf h₂
  obtain rfl : address = x := by simpa using (htracks.slots _ _ hreference).mpr hsource
  obtain rfl : elements = stored := by
    rw [hcell] at hstored
    exact Cell.array.inj (Option.some.inj hstored)
  -- the position is the literal one
  obtain rfl : n = n' := by simpa [Slots.get?, hstack] using hrun.literal hg hf h₁ hliteral
  obtain rfl : index = slot := Option.some.inj (hindex.symm.trans hslot)
  refine ⟨v, hlt', ?_, by rw [hmemory, Memory.heap_write_self]⟩
  rcases hrun.denotes_of_infer hg hw hf h₀ hinfer hvalue with ⟨old, hold, hentry⟩ | hdenotes
  · exact absurd hentry (hfree₀ _ old hpath hold)
  · exact hdenotes

/-- An array store in the window does to the array what it was taken to do. -/
theorem store (h : Judged s k o site list) (hw : w.Agrees s) (hrecent : o.allocation ∉ recent)
    (hrun : Run w s.graph.body init (recent ++ o.allocation :: earlier) before)
    (hstep : Step w s.graph.body before state)
    (hi : s.graph.instruction? before.pc = some .arrayStore)
    (houtside : before.pc < o.allocation ∨ site ≤ before.pc →
      s.graph.body.source (recent ++ o.allocation :: earlier) (.stack 2) ≠
        .made earlier.length o.allocation)
    (hfilled : Filled s k o site recent earlier before x) :
    ∃ elements, state.memory.heap x = some (.array elements) ∧
      elements.length = o.length ∧ Holds s k o site (before.pc :: recent) elements := by
  have hg := h.solved
  have hpath := hrun.path hg (MethodBody.length_pos_of_code hi)
  obtain ⟨f, hf, -⟩ := hg.covers hpath
  obtain ⟨htracks, elements, hcell, hlength, hholds⟩ := hfilled
  by_cases hinside : o.allocation ≤ before.pc ∧ before.pc < site
  · obtain ⟨hle, hlt⟩ := hinside
    have hclear := h.clear _ hle hlt
    have heffect := Scope.windowEffect_of_arrayStore hclear hi hf
    cases hstore : s.storeEffect k o f with
    | spoil => exact absurd (heffect.trans hstore) hclear
    | none =>
      have hne := Scope.source_ne_of_storeEffect_eq_none hg hstore hpath hf earlier.length
      refine ⟨elements, (htracks.heap_of_source_ne hstep hi hne).trans hcell, hlength,
        hholds.cons fun _ _ _ _ => ?_⟩
      rw [heffect, hstore]
      simp
    | write slot element =>
      have hwrite := heffect.trans hstore
      obtain ⟨v, hslot, hv, hcell'⟩ :=
        h.write hw hrecent hrun hstep hi hf hle hlt hwrite hstore htracks hcell
      exact ⟨_, hcell', List.length_set.trans hlength,
        hholds.set h.toFound hle hlt hwrite hslot hv⟩
  · -- no check was made for stores outside the window
    have hne := houtside (by omega)
    exact ⟨elements, (htracks.heap_of_source_ne hstep hi hne).trans hcell, hlength,
      hholds.cons fun hle hlt => absurd ⟨hle, hlt⟩ hinside⟩

/-- A step on the way to the call keeps the array filled. -/
theorem step (h : Judged s k o site list) (hw : w.Agrees s) (hconfines : w.Confines s.safeCalls)
    (hrecent : o.allocation ∉ recent)
    (hrun : Run w s.graph.body init (recent ++ o.allocation :: earlier) before)
    (hstep : Step w s.graph.body before state)
    (hreaches : Reaches s.graph.length s.graph.predecessors [site] before.pc)
    (houtside : s.graph.instruction? before.pc = some .arrayStore →
      before.pc < o.allocation ∨ site ≤ before.pc →
      s.graph.body.source (recent ++ o.allocation :: earlier) (.stack 2) ≠
        .made earlier.length o.allocation)
    (hfilled : Filled s k o site recent earlier before x) :
    Filled s k o site (before.pc :: recent) earlier state x := by
  have hleak := fun i => h.not_leaks (i := i) hrun hfilled.tracks hreaches
  obtain ⟨i, hi⟩ := hstep.exists_code
  have ⟨elements, hcell, hlength, hholds⟩ := hfilled.array
  refine ⟨hfilled.tracks.step hconfines.discreet hcell hstep hleak, ?_⟩
  by_cases hstore : i = .arrayStore
  · subst hstore
    exact h.store hw hrecent hrun hstep hi (houtside hi) hfilled
  · refine ⟨elements, ?_, hlength, hholds.cons fun _ _ slot element hwrite => hstore ?_⟩
    · exact hstep.heap_of_ne_arrayStore hconfines hi hstore hcell hfilled.tracks.hidden (hleak i hi)
    · exact Option.some.inj (hi.symm.trans (Scope.instruction?_of_windowEffect_eq_write hwrite))

/-- Since its allocation, the array is filled on the whole way to the call. -/
theorem filled (h : Judged s k o site list) (hw : w.Agrees s) (hconfines : w.Confines s.safeCalls)
    (hpath : s.graph.body.Path trail site)
    (houtside : ∀ j past, j :: past <:+ trail → s.graph.instruction? j = some .arrayStore →
      j < o.allocation ∨ site ≤ j →
      s.graph.body.source past (.stack 2) ≠ .made earlier.length o.allocation)
    (hrecent : o.allocation ∉ recent) (hsuffix : recent ++ o.allocation :: earlier <:+ trail)
    (hrun : Run w s.graph.body init (recent ++ o.allocation :: earlier) state) :
    ∃ x, Filled s k o site recent earlier state x := by
  induction recent generalizing state with
  | nil =>
    obtain ⟨before, hrun', hpc, hstep⟩ := hrun.exists_step
    exact h.allocate hrun' hpc hstep
  | cons j recent ih =>
    obtain ⟨before, hrun', rfl, hstep⟩ := hrun.exists_step
    have hrecent' : o.allocation ∉ recent := fun hmem => hrecent (List.mem_cons_of_mem _ hmem)
    obtain ⟨x, hfilled⟩ := ih hrecent' ((List.suffix_cons _ _).trans hsuffix) hrun'
    have hreaches : Reaches s.graph.length s.graph.predecessors [site] before.pc := by
      obtain ⟨later, rfl⟩ := hsuffix
      obtain ⟨f, hf, -⟩ := h.solved.covers hpath
      exact h.solved.reaches_of_path hpath
        (.root List.mem_cons_self (FrameGraph.lt_length_of_frame hf))
    exact ⟨x, h.step hw hconfines hrecent' hrun' hstep hreaches
      (houtside before.pc _ hsuffix) hfilled⟩

end Judged

/-! ## At the call -/

/-- The places whose producers are followed to find that an array is constant. -/
inductive Inspected (s : Scope) (k : ConstantKind) (o : ArrayOrigin) (site : Nat) (place : Place) :
    Nat → Place → Prop where
  | value : Inspected s k o site place site place
  | reference {j slot : Nat} {element : k.Value} (hj : o.allocation ≤ j) (hlt : j < site)
      (h : s.windowEffect k o j = .write slot element) : Inspected s k o site place j (.stack 2)
  | element {j slot : Nat} {element : k.Value} (hj : o.allocation ≤ j) (hlt : j < site)
      (h : s.windowEffect k o j = .write slot element) : Inspected s k o site place j (.stack 0)

/--
Each time control reaches a safe call, an array that is found constant there has the elements that
were found, if the window is passed in a straight line, no value that was looked at can come from
the entry, and no array store outside the window has stored to the array.
-/
theorem inferArray_contents {m : MethodBody} {callee : MethodRef} {place : Place} {set : IndexSet}
    (hbuild : FrameGraph.build m = .ok s.graph) (hw : w.Agrees s)
    (hconfines : w.Confines s.safeCalls) (hrun : Run w m init trail state)
    (hnode : s.graph.node? state.pc = some (.invoke callee, f))
    (hsafe : s.safeCalls.contains callee.signature = true)
    (hset : f.view.get? place = some set)
    (horigin : s.graph.origin? s.maxTraceDepth set = some o)
    (hinfer : s.inferArray k set state.pc = some list)
    (hsealed : m.Sealed o.allocation state.pc)
    (hfree : ∀ i p, Inspected s k o state.pc place i p → s.graph.EntryFree i p)
    (hstores : ∀ j past, j :: past <:+ trail → m.code[j]? = some .arrayStore →
      j < o.allocation ∨ state.pc ≤ j → m.source past (.stack 2) ≠ m.source trail place) :
    ∃ x elements, state.slots.get? place = some (.ref x) ∧
      state.memory.heap x = some (.array elements) ∧ List.Forall₂ k.Denotes list elements := by
  obtain rfl := FrameGraph.body_of_build hbuild
  have hg := FrameGraph.solved_of_build hbuild
  obtain ⟨hi, hf⟩ := FrameGraph.node?_eq_some_iff.mp hnode
  have hpath := hrun.path hg (hg.length_pos hf)
  obtain ⟨hleads, hallocation⟩ := FrameGraph.leads_of_traceOrigin horigin
  have hjudged : Judged s k o state.pc list := {
    toFound := Scope.found_of_inferArray horigin hinfer
    solved := hg
    allocation := hallocation
    call := ⟨callee, hi, hsafe⟩
    entryFree := fun j slot element hj hlt hwrite =>
      ⟨hfree j _ (.reference hj hlt hwrite), hfree j _ (.element hj hlt hwrite)⟩ }
  obtain ⟨element, fa, hnew, -⟩ := hallocation
  have hnew := (FrameGraph.node?_eq_some_iff.mp hnew).1
  -- the argument is the array that was allocated last
  have hmem := hg.mem_trail_of_leads (hfree _ _ .value) hleads hnew rfl hpath hf hset
  obtain ⟨recent, earlier, rfl, hrecent⟩ := List.eq_append_cons_of_mem hmem
  have hsource := hg.source_eq_latest (hfree _ _ .value) hleads hnew rfl hpath hrecent hf hset
  rw [hsource] at hstores
  -- what it holds when control reaches the call
  obtain ⟨x, htracks, elements, hcell, hlength, hholds⟩ :=
    hjudged.filled hw hconfines hpath hstores hrecent (List.suffix_refl _) hrun
  obtain ⟨v, hv⟩ := hrun.exists_value hg hf hset
  obtain rfl := (htracks.slots place v hv).mpr hsource
  refine ⟨x, elements, hv, hcell, hholds.forall₂ hjudged.toFound hlength ?_⟩
  intro j slot element' hle hlt hwrite
  have hne : o.allocation ≠ j := by
    rintro rfl
    simpa [hnew] using Scope.instruction?_of_windowEffect_eq_write hwrite
  exact hpath.mem_of_sealed hsealed hjudged.after (by omega) hlt

/-! ## Arrays in the quiet world -/

/-- A call that takes an array of texts. -/
def printAll : MethodRef where
  kind := .static
  signature := ⟨"app/Target", "printAll", "([Ljava/lang/String;)V"⟩
  descriptor := ⟨[.array (.object "java/lang/String")], none⟩
  parsed := MethodDescriptor.parse_eq_ok_iff.mpr ⟨by decide, rfl⟩

/-- The call is known not to let arrays escape. -/
def printSafely : SafeCalls := .insert .empty printAll.signature

theorem printAll_safe : printSafely.contains printAll.signature = true := by decide

theorem confines_quiet (safe : SafeCalls) : quietWorld.Confines safe := by
  rintro _ _ _ _ _ _ ⟨rfl, rfl⟩ x elements hcell hhidden -
  exact ⟨hcell, hhidden, by simp⟩

theorem hidden_begin (locals : List Value) (x : Nat) : (begin locals).memory.Hidden x :=
  ⟨fun _ _ h => by simp [begin] at h, fun _ => by simp [begin]⟩

theorem fresh_of_notMem {mem : Memory} {c : Slots Value} {x : Nat} (hunused : mem.heap x = none)
    (hhidden : mem.Hidden x) (hlocals : .ref x ∉ c.locals) (hstack : .ref x ∉ c.stack) :
    mem.Fresh c x where
  unused := hunused
  hidden := hhidden
  slots := by
    intro place hplace
    cases place with
    | slot index => exact hlocals (List.mem_of_getElem? hplace)
    | stack below => exact hstack (List.mem_of_getElem? hplace)

/-- Allocates an array, fills it and prints it over and over. -/
def printAgain : MethodBody where
  name := "printAgain"
  descriptor := ⟨[], none⟩
  flags := .static
  maxLocals := 0
  code := #[.intConst 1, .newArray (.object "java/lang/String"), .dup, .intConst 0,
    .ldc (.text "x"), .arrayStore, .dup, .invoke printAll, .goto 6]

theorem run_printAgain : ∃ state, state.pc = 7 ∧
    Run quietWorld printAgain (begin []) [6, 8, 7, 6, 5, 4, 3, 2, 1, 0] state := by
  have fresh : (begin []).memory.Fresh ⟨[], [.int 1]⟩ 0 :=
    fresh_of_notMem rfl (hidden_begin _ _) (by simp) (by simp)
  have h₀ : Run quietWorld printAgain (begin []) [] _ := .start ⟨rfl, rfl, rfl⟩
  have h₁ := h₀.step (.execute rfl (.intConst 1) rfl)
  have h₂ := h₁.step (.execute rfl (.newArray rfl rfl fresh) rfl)
  have h₃ := h₂.step (.execute rfl (.dup rfl) rfl)
  have h₄ := h₃.step (.execute rfl (.intConst 0) rfl)
  have h₅ := h₄.step (.execute rfl (.ldc rfl) rfl)
  have h₆ := h₅.step (.execute rfl (.arrayStore rfl rfl rfl (by decide)) rfl)
  have h₇ := h₆.step (.execute rfl (.dup rfl) rfl)
  have h₈ := h₇.step (.execute rfl (.invoke (by decide) ⟨rfl, rfl⟩ rfl) rfl)
  have h₉ := h₈.step (.execute rfl (.goto 6) rfl)
  have h₁₀ := h₉.step (.execute rfl (.dup rfl) rfl)
  exact ⟨_, rfl, h₁₀⟩

theorem sealed_printAgain : printAgain.Sealed 1 7 := by
  refine MethodBody.sealed_of_no_targets fun j hj hlt => ?_
  have hcases : j = 1 ∨ j = 2 ∨ j = 3 ∨ j = 4 ∨ j = 5 ∨ j = 6 := by omega
  rcases hcases with rfl | rfl | rfl | rfl | rfl | rfl
  all_goals exact ⟨_, rfl, rfl⟩

theorem eq_of_arrayStore_printAgain {j : Nat} (h : printAgain.code[j]? = some .arrayStore) :
    j = 5 := by
  have hall : ∀ n : Fin 9, printAgain.code[n.val]? = some .arrayStore → n.val = 5 := by decide
  exact hall ⟨j, (Array.getElem?_eq_some_iff.mp h).1⟩ h

/-- What a graph must say for an array to be found constant at a call. -/
theorem exists_of_infer (m : MethodBody) (site producer : Nat) (found : List String)
    (h : (FrameGraph.build m).toOption.map (fun g =>
      ((g.node? site).map fun n => (n.1, n.2.peek? 0),
        (quietScope g printSafely).inferArray .text (.singleton producer) site)) =
      some (some (.invoke printAll, some (.singleton producer)), some found)) :
    ∃ g f, FrameGraph.build m = .ok g ∧ g.node? site = some (.invoke printAll, f) ∧
      f.view.get? (.stack 0) = some (.singleton producer) ∧
      (quietScope g printSafely).inferArray .text (.singleton producer) site = some found := by
  obtain ⟨g, hbuild, hread⟩ := FrameGraph.exists_of_build_map h
  obtain ⟨hsite, hinfer⟩ := Prod.mk.inj hread
  obtain ⟨⟨i, f⟩, hnode, hfound⟩ := Option.map_eq_some_iff.mp hsite
  obtain ⟨rfl, hset⟩ := Prod.mk.inj hfound
  exact ⟨g, f, hbuild, hnode, hset, hinfer⟩

/-- When the loop comes back to the call, the array that is printed again is still filled. -/
theorem inferArray_contents_second_time : ∃ g f o state x elements,
    FrameGraph.build printAgain = .ok g ∧
    Run quietWorld printAgain (begin []) [6, 8, 7, 6, 5, 4, 3, 2, 1, 0] state ∧
    g.node? state.pc = some (.invoke printAll, f) ∧
    f.view.get? (.stack 0) = some (.singleton 6) ∧
    g.origin? 8 (.singleton 6) = some o ∧ printAgain.Sealed o.allocation state.pc ∧
    (quietScope g printSafely).inferArray .text (.singleton 6) state.pc = some ["x"] ∧
    state.slots.get? (.stack 0) = some (.ref x) ∧
    state.memory.heap x = some (.array elements) ∧
    List.Forall₂ ConstantKind.text.Denotes ["x"] elements := by
  obtain ⟨g, f, hbuild, hnode, hset, hinfer⟩ := exists_of_infer printAgain 7 6 ["x"] (by cbv)
  obtain ⟨g', hbuild', horigin⟩ := FrameGraph.exists_of_build_map (m := printAgain)
    (show (FrameGraph.build printAgain).toOption.map
      (fun g => (g.origin? 8 (.singleton 6)).map (·.allocation)) = some (some 1) by cbv)
  obtain rfl : g = g' := Except.ok.inj (hbuild.symm.trans hbuild')
  obtain ⟨o, ho, hallocation⟩ := Option.map_eq_some_iff.mp horigin
  obtain ⟨state, hpc, hrun⟩ := run_printAgain
  rw [← hpc] at hnode hinfer
  have hsealed : printAgain.Sealed o.allocation state.pc := by
    rw [hallocation, hpc]
    exact sealed_printAgain
  have hfree : ∀ i p, Inspected (quietScope g printSafely) .text o state.pc (.stack 0) i p →
      g.EntryFree i p := by
    intro i p _ trail slot _ hslot
    rw [FrameGraph.body_of_build hbuild] at hslot
    exact absurd hslot (Nat.not_lt_zero slot)
  obtain ⟨x, elements, hx, hcell, hdenotes⟩ :=
    inferArray_contents (s := quietScope g printSafely) hbuild (agrees_quiet g printSafely)
      (confines_quiet printSafely) hrun hnode printAll_safe hset ho hinfer hsealed hfree (by
        intro j past _ hstore houtside
        have hj := eq_of_arrayStore_printAgain hstore
        omega)
  exact ⟨g, f, o, state, x, elements, hbuild, hrun, hnode, hset, ho, hsealed, hinfer, hx, hcell,
    hdenotes⟩

/-! ## Arrays that are misjudged -/

/-- A run comes to a safe call with an array for which other elements were found. -/
def Misjudged (m : MethodBody) (locals : List Value) (trail : List Nat) (found : List String)
    (actual : List Value) : Prop :=
  ∃ g f set state x, FrameGraph.build m = .ok g ∧
    quietWorld.Agrees (quietScope g printSafely) ∧ quietWorld.Confines printSafely ∧
    Run quietWorld m (begin locals) trail state ∧
    g.node? state.pc = some (.invoke printAll, f) ∧
    printSafely.contains printAll.signature = true ∧ f.view.get? (.stack 0) = some set ∧
    (quietScope g printSafely).inferArray .text set state.pc = some found ∧
    state.slots.get? (.stack 0) = some (.ref x) ∧ state.memory.heap x = some (.array actual)

/-- Fills an array only if it is printed again. -/
def printThenFill : MethodBody where
  name := "printThenFill"
  descriptor := ⟨[.array (.object "java/lang/String"), .primitive .int], none⟩
  flags := .static
  maxLocals := 2
  code := #[.intConst 1, .newArray (.object "java/lang/String"), .store 0, .goto 8, .load 0,
    .intConst 0, .ldc (.text "x"), .arrayStore, .load 0, .invoke printAll, .load 1, .branch .eq 4,
    .ret false]

/-- Puts the first parameter into an array, or a constant unless the second parameter is zero. -/
def printEither : MethodBody where
  name := "printEither"
  descriptor := ⟨[.object "java/lang/String", .primitive .boolean], none⟩
  flags := .static
  maxLocals := 2
  code := #[.load 1, .branch .eq 4, .ldc (.text "x"), .store 0, .intConst 1,
    .newArray (.object "java/lang/String"), .dup, .intConst 0, .load 0, .arrayStore,
    .invoke printAll, .ret false]

/-- Prints an array and changes it before it is printed again. -/
def printThenChange : MethodBody where
  name := "printThenChange"
  descriptor := ⟨[], none⟩
  flags := .static
  maxLocals := 0
  code := #[.intConst 1, .newArray (.object "java/lang/String"), .dup, .intConst 0,
    .ldc (.text "x"), .arrayStore, .dup, .invoke printAll, .dup, .intConst 0, .ldc (.text "y"),
    .arrayStore, .goto 6]

/--
An array is misjudged if a jump skips stores of the window, if a parameter takes the place of a
constant, and if the array is changed after the call and printed again.
-/
theorem inferArray_misjudges :
    Misjudged printThenFill [.null, .int 0] [8, 3, 2, 1, 0] ["x"] [.null] ∧
    Misjudged printEither [.text "p", .int 0] [9, 8, 7, 6, 5, 4, 1, 0] ["x"] [.text "p"] ∧
    Misjudged printThenChange [] [6, 12, 11, 10, 9, 8, 7, 6, 5, 4, 3, 2, 1, 0] ["x"]
      [.text "y"] := by
  refine ⟨?_, ?_, ?_⟩
  · obtain ⟨g, f, hbuild, hnode, hset, hinfer⟩ := exists_of_infer printThenFill 9 8 ["x"] (by cbv)
    have fresh : (begin [.null, .int 0]).memory.Fresh ⟨[.null, .int 0], [.int 1]⟩ 0 :=
      fresh_of_notMem rfl (hidden_begin _ _) (by simp) (by simp)
    have h₀ : Run quietWorld printThenFill (begin [.null, .int 0]) [] _ := .start ⟨rfl, rfl, rfl⟩
    have h₁ := h₀.step (.execute rfl (.intConst 1) rfl)
    have h₂ := h₁.step (.execute rfl (.newArray rfl rfl fresh) rfl)
    have h₃ := h₂.step (.execute rfl (.store rfl) rfl)
    have h₄ := h₃.step (.execute rfl (.goto 8) rfl)
    have h₅ := h₄.step (.execute rfl (.load rfl) rfl)
    exact ⟨g, f, _, _, 0, hbuild, agrees_quiet g _, confines_quiet _, h₅, hnode, printAll_safe,
      hset, hinfer, rfl, rfl⟩
  · obtain ⟨g, f, hbuild, hnode, hset, hinfer⟩ := exists_of_infer printEither 10 5 ["x"] (by cbv)
    have fresh : (begin [.text "p", .int 0]).memory.Fresh ⟨[.text "p", .int 0], [.int 1]⟩ 0 :=
      fresh_of_notMem rfl (hidden_begin _ _) (by simp) (by simp)
    have h₀ : Run quietWorld printEither (begin [.text "p", .int 0]) [] _ :=
      .start ⟨rfl, rfl, rfl⟩
    have h₁ := h₀.step (.execute rfl (.load rfl) rfl)
    have h₂ := h₁.step (.execute rfl (.branch rfl)
      ⟨_, true, rfl, fun b hb => Option.some.inj hb, rfl⟩)
    have h₃ := h₂.step (.execute rfl (.intConst 1) rfl)
    have h₄ := h₃.step (.execute rfl (.newArray rfl rfl fresh) rfl)
    have h₅ := h₄.step (.execute rfl (.dup rfl) rfl)
    have h₆ := h₅.step (.execute rfl (.intConst 0) rfl)
    have h₇ := h₆.step (.execute rfl (.load rfl) rfl)
    have h₈ := h₇.step (.execute rfl (.arrayStore rfl rfl rfl (by decide)) rfl)
    exact ⟨g, f, _, _, 0, hbuild, agrees_quiet g _, confines_quiet _, h₈, hnode, printAll_safe,
      hset, hinfer, rfl, rfl⟩
  · obtain ⟨g, f, hbuild, hnode, hset, hinfer⟩ :=
      exists_of_infer printThenChange 7 6 ["x"] (by cbv)
    have fresh : (begin []).memory.Fresh ⟨[], [.int 1]⟩ 0 :=
      fresh_of_notMem rfl (hidden_begin _ _) (by simp) (by simp)
    have h₀ : Run quietWorld printThenChange (begin []) [] _ := .start ⟨rfl, rfl, rfl⟩
    have h₁ := h₀.step (.execute rfl (.intConst 1) rfl)
    have h₂ := h₁.step (.execute rfl (.newArray rfl rfl fresh) rfl)
    have h₃ := h₂.step (.execute rfl (.dup rfl) rfl)
    have h₄ := h₃.step (.execute rfl (.intConst 0) rfl)
    have h₅ := h₄.step (.execute rfl (.ldc rfl) rfl)
    have h₆ := h₅.step (.execute rfl (.arrayStore rfl rfl rfl (by decide)) rfl)
    have h₇ := h₆.step (.execute rfl (.dup rfl) rfl)
    have h₈ := h₇.step (.execute rfl (.invoke (by decide) ⟨rfl, rfl⟩ rfl) rfl)
    have h₉ := h₈.step (.execute rfl (.dup rfl) rfl)
    have h₁₀ := h₉.step (.execute rfl (.intConst 0) rfl)
    have h₁₁ := h₁₀.step (.execute rfl (.ldc rfl) rfl)
    have h₁₂ := h₁₁.step (.execute rfl (.arrayStore rfl rfl rfl (by decide)) rfl)
    have h₁₃ := h₁₂.step (.execute rfl (.goto 6) rfl)
    have h₁₄ := h₁₃.step (.execute rfl (.dup rfl) rfl)
    exact ⟨g, f, _, _, 0, hbuild, agrees_quiet g _, confines_quiet _, h₁₄, hnode, printAll_safe,
      hset, hinfer, rfl, rfl⟩

end CallFold.Machine
