import CallFold.Proofs.ConstantArrays

/-!
# Possible aliases and runs

As long as no array that was made at a site has leaked, every place that holds a reference to one of
them is seen as a possible alias of the site (`mayAlias_of_ref`). The site may have been executed
any number of times, and the arrays that it made are in view all at once (`History.tracks`).

What has leaked so far depends on the values that a run has met, so a run is taken here with the
states that it has left.
-/

namespace CallFold.Machine

variable {w : World} {m : MethodBody} {safe : SafeCalls} {init s s' : State} {past : List State}
  {site x : Nat}

/-! ## Histories -/

/-- A run with the states that it has left, the latest first. -/
inductive History (w : World) (m : MethodBody) (init : State) : List State → State → Prop where
  | start (h : Initial m init) : History w m init [] init
  | step {past : List State} {s s' : State} (h : History w m init past s) (hstep : Step w m s s') :
      History w m init (s :: past) s'

theorem History.run (h : History w m init past s) : Run w m init (past.map State.pc) s := by
  induction h with
  | start hinit => exact .start hinit
  | step _ hstep ih => exact ih.step hstep

/-- An execution of the instruction at a site left a reference to an address on top of the stack. -/
def Allocates (site x : Nat) (before after : State) : Prop :=
  before.pc = site ∧ after.slots.stack[0]? = some (.ref x)

/-- Some execution of the instruction at a site did so, among states with the latest first. -/
def Allocated (site x : Nat) : List State → Prop
  | after :: before :: past => Allocates site x before after ∨ Allocated site x (before :: past)
  | _ => False

/-- No instruction that was executed leaked an array that had been made at the site by then. -/
def Contained (m : MethodBody) (safe : SafeCalls) (site : Nat) : List State → Prop
  | [] => True
  | before :: past => Contained m safe site past ∧
      ∀ x i, Allocated site x (before :: past) → m.code[before.pc]? = some i →
        ¬ Leaks safe before.slots x i

/-! ## Arrays in view -/

/-- What an allocation leaves on top of the stack is in view. -/
theorem tracks_of_allocates {element : Descriptor} (hnew : m.code[site]? = some (.newArray element))
    (hstep : Step w m s s') (hx : Allocates site x s s') (trail : List Nat) :
    Tracks m x trail.length site (s.pc :: trail) s' ∧
      ∃ elements, s'.memory.heap x = some (.array elements) := by
  obtain ⟨rfl, htop⟩ := hx
  obtain ⟨y, n, length, rest, -, -, hcell, htracks⟩ := tracks_of_newArray hnew hstep trail
  have hsource : m.source (s.pc :: trail) (.stack 0) = .made trail.length s.pc :=
    MethodBody.source_cons_of_none hnew rfl
  obtain rfl : x = y := by simpa using (htracks.slots (.stack 0) _ htop).mpr hsource
  exact ⟨htracks, _, hcell⟩

/-- An array in view is still an array after an instruction that does not leak it. -/
theorem Tracks.exists_cell {time : Nat} {trail : List Nat} (h : Tracks m x time site trail s)
    (hw : w.Discreet safe) {elements : List Value}
    (hcell : s.memory.heap x = some (.array elements)) (hstep : Step w m s s')
    (hleak : ∀ i, m.code[s.pc]? = some i → ¬ Leaks safe s.slots x i) :
    ∃ elements', s'.memory.heap x = some (.array elements') := by
  cases hstep with
  | execute hcode heffect _ => exact heffect.exists_cell hw hcell h.hidden (hleak _ hcode)

/-- Every array that was made at a site is in view as long as none of them has leaked. -/
theorem History.tracks {element : Descriptor} (hnew : m.code[site]? = some (.newArray element))
    (hw : w.Discreet safe) (h : History w m init past s) (hcontained : Contained m safe site past)
    (hx : Allocated site x (s :: past)) :
    ∃ time elements, Tracks m x time site (past.map State.pc) s ∧
      s.memory.heap x = some (.array elements) := by
  induction h with
  | start _ => exact absurd hx id
  | @step past s s' _ hstep ih =>
    obtain ⟨hearlier, hnow⟩ := hcontained
    rcases hx with hallocates | hallocated
    · obtain ⟨htracks, elements, hcell⟩ := tracks_of_allocates hnew hstep hallocates _
      exact ⟨_, elements, htracks, hcell⟩
    · obtain ⟨time, elements, htracks, hcell⟩ := ih hearlier hallocated
      have hleak := fun i => hnow x i hallocated
      obtain ⟨elements', hcell'⟩ := htracks.exists_cell hw hcell hstep hleak
      exact ⟨time, elements', htracks.step hw hcell hstep hleak, hcell'⟩

/--
Where a run holds a reference to an array that was made at a site, the frame shows a possible alias
of the site, as long as no array that was made there has leaked.
-/
theorem mayAlias_of_ref {g : FrameGraph} {element : Descriptor} {place : Place}
    (hbuild : FrameGraph.build m = .ok g) (hnew : m.code[site]? = some (.newArray element))
    (hw : w.Discreet safe) (h : History w m init past s) (hcontained : Contained m safe site past)
    (hx : Allocated site x (s :: past)) (hplace : s.slots.get? place = some (.ref x)) :
    ∃ f set, g.frame? s.pc = some f ∧ f.view.get? place = some set ∧
      g.mayAlias set site = true := by
  obtain rfl := FrameGraph.body_of_build hbuild
  have hg := FrameGraph.solved_of_build hbuild
  have hpos := MethodBody.length_pos_of_code hnew
  obtain ⟨f, set, hf, hset⟩ := h.run.exists_producers hg hpos hplace
  obtain ⟨time, elements, htracks, -⟩ := h.tracks hnew hw hcontained hx
  have hsource := (htracks.slots place _ hplace).mp rfl
  exact ⟨f, set, hf, hset, hg.mayAlias_of_source (h.run.path hg hpos) hf hset hsource⟩

/-! ## Two arrays of one site -/

/-- Makes an array again and again, and prints it as soon as the next one is made. -/
def printPrevious : MethodBody where
  name := "printPrevious"
  descriptor := ⟨[], none⟩
  flags := .static
  maxLocals := 1
  code := #[.intConst 1, .newArray (.object "java/lang/String"), .load 0, .swap, .store 0,
    .invoke printAll, .goto 0]

/-- Code in which nothing can leak contains every array. -/
theorem contained_of_code (h : ∀ i ∈ m.code, ∀ c x, ¬ Leaks safe c x i) (past : List State) :
    Contained m safe site past := by
  induction past with
  | nil => trivial
  | cons before past ih =>
    exact ⟨ih, fun x i _ hi => h i (Array.mem_of_getElem? hi) before.slots x⟩

theorem contained_printPrevious (past : List State) :
    Contained printPrevious printSafely 1 past := by
  refine contained_of_code (fun i hi c x => ?_) past
  simp only [printPrevious, List.mem_toArray, List.mem_cons, List.not_mem_nil, or_false] at hi
  rcases hi with rfl | rfl | rfl | rfl | rfl | rfl | rfl
  case inr.inr.inr.inr.inr.inl => simp [Leaks, printAll_safe]
  all_goals exact id

theorem history_printPrevious : ∃ past s,
    History quietWorld printPrevious (begin [.null]) past s ∧
    past.map State.pc = [3, 2, 1, 0, 6, 5, 4, 3, 2, 1, 0] ∧ Allocated 1 0 (s :: past) ∧
    s.slots.stack = [.ref 1, .ref 0] := by
  have first : (begin [.null]).memory.Fresh ⟨[.null], [.int 1]⟩ 0 :=
    fresh_of_notMem rfl (hidden_begin _ _) (by simp) (by simp)
  have second : ((begin [.null]).memory.write 0
      (.array (List.replicate 1 (.initial (.object "java/lang/String"))))).Fresh
        ⟨[.ref 0], [.int 1]⟩ 1 :=
    fresh_of_notMem rfl ((hidden_begin _ _).write (not_refers_initial _ _ _)) (by simp) (by simp)
  have h₀ : History quietWorld printPrevious (begin [.null]) [] _ := .start ⟨rfl, rfl, rfl⟩
  have h₁ := h₀.step (.execute rfl (.intConst 1) rfl)
  have h₂ := h₁.step (.execute rfl (.newArray rfl rfl first) rfl)
  have h₃ := h₂.step (.execute rfl (.load rfl) rfl)
  have h₄ := h₃.step (.execute rfl (.swap rfl) rfl)
  have h₅ := h₄.step (.execute rfl (.store rfl) rfl)
  have h₆ := h₅.step (.execute rfl (.invoke (by decide) ⟨rfl, rfl⟩ rfl) rfl)
  have h₇ := h₆.step (.execute rfl (.goto 0) rfl)
  have h₈ := h₇.step (.execute rfl (.intConst 1) rfl)
  have h₉ := h₈.step (.execute rfl (.newArray rfl rfl second) rfl)
  have h₁₀ := h₉.step (.execute rfl (.load rfl) rfl)
  have h₁₁ := h₁₀.step (.execute rfl (.swap rfl) rfl)
  refine ⟨_, _, h₁₁, rfl, ?_, rfl⟩
  exact .inr <| .inr <| .inr <| .inr <| .inr <| .inr <| .inr <| .inr <| .inr <| .inl ⟨rfl, rfl⟩

/-- When the second array is about to be kept, the first one is still seen below it. -/
theorem mayAlias_of_ref_second_time : ∃ g past s f set,
    FrameGraph.build printPrevious = .ok g ∧ quietWorld.Discreet printSafely ∧
    History quietWorld printPrevious (begin [.null]) past s ∧
    past.map State.pc = [3, 2, 1, 0, 6, 5, 4, 3, 2, 1, 0] ∧
    Contained printPrevious printSafely 1 past ∧ Allocated 1 0 (s :: past) ∧
    s.slots.get? (.stack 1) = some (.ref 0) ∧ g.frame? s.pc = some f ∧
    f.view.get? (.stack 1) = some set ∧ g.mayAlias set 1 = true := by
  obtain ⟨g, hbuild, -⟩ := FrameGraph.exists_of_build_map (m := printPrevious)
    (show (FrameGraph.build printPrevious).toOption.map FrameGraph.length = some 7 by cbv)
  obtain ⟨past, s, hhistory, htrail, hallocated, hstack⟩ := history_printPrevious
  have hdiscreet := (confines_quiet printSafely).discreet
  have hcontained := contained_printPrevious past
  have hplace : s.slots.get? (.stack 1) = some (.ref 0) := by simp [Slots.get?, hstack]
  obtain ⟨f, set, hf, hset, halias⟩ :=
    mayAlias_of_ref hbuild rfl hdiscreet hhistory hcontained hallocated hplace
  exact ⟨g, past, s, f, set, hbuild, hdiscreet, hhistory, htrail, hcontained, hallocated, hplace,
    hf, hset, halias⟩

end CallFold.Machine
