import CallFold.Proofs.FixedPoint
import Mathlib

/-!
# Which methods are rejected

A method has no frame graph exactly if it is ill formed. Being ill formed is a property of the clean
paths, so neither the order in which instructions are explored nor an instruction to which no clean
path leads can make a difference.
-/

namespace CallFold

/-! ## Code that is not reached -/

namespace MethodBody

variable {m m' : MethodBody}

/-- Two methods of one size have the same instructions wherever a clean path of the first leads. -/
structure SameWhereReached (m m' : MethodBody) : Prop where
  length : m'.length = m.length
  maxLocals : m'.maxLocals = m.maxLocals
  code : ∀ trail i, m.CleanPath trail i → m'.code[i]? = m.code[i]?

theorem fault_congr (hlength : m'.length = m.length) (hlocals : m'.maxLocals = m.maxLocals)
    {i depth : Nat} (hcode : m'.code[i]? = m.code[i]?) : m'.Fault i depth ↔ m.Fault i depth := by
  constructor
  · intro h
    cases h with
    | underflow h hdepth => exact .underflow (hcode ▸ h) hdepth
    | slot h hslot hrange => exact .slot (hcode ▸ h) hslot (hlocals ▸ hrange)
    | target h htarget hrange => exact .target (hcode ▸ h) htarget (hlength ▸ hrange)
    | fallsOff h hfalls hrange => exact .fallsOff (hcode ▸ h) hfalls (hlength ▸ hrange)
  · intro h
    cases h with
    | underflow h hdepth => exact .underflow (hcode.trans h) hdepth
    | slot h hslot hrange => exact .slot (hcode.trans h) hslot (hlocals ▸ hrange)
    | target h htarget hrange => exact .target (hcode.trans h) htarget (hlength ▸ hrange)
    | fallsOff h hfalls hrange => exact .fallsOff (hcode.trans h) hfalls (hlength ▸ hrange)

theorem edge_congr {i j : Nat} (hcode : m'.code[i]? = m.code[i]?) :
    m'.Edge i j ↔ m.Edge i j := by
  unfold Edge
  rw [hcode]

/-- Along a clean path of the first method, the second does the same. -/
theorem SameWhereReached.cleanPath (h : SameWhereReached m m') {trail : List Nat} {i : Nat}
    (hpath : m.CleanPath trail i) :
    m'.CleanPath trail i ∧ m'.depthAfter trail = m.depthAfter trail := by
  induction hpath with
  | entry hpos => exact ⟨.entry (h.length ▸ hpos), rfl⟩
  | @step trail i j hpath hfault hedge ih =>
    have hcode := h.code trail i hpath
    refine ⟨.step ih.1 ?_ ((edge_congr hcode).mpr hedge), ?_⟩
    · rw [ih.2, fault_congr h.length h.maxLocals hcode]
      exact hfault
    · simp only [depthAfter, hcode, ih.2]

/-- A clean path of the second method is one of the first: it cannot leave the common code. -/
theorem SameWhereReached.of_cleanPath (h : SameWhereReached m m') {trail : List Nat} {i : Nat}
    (hpath : m'.CleanPath trail i) : m.CleanPath trail i := by
  induction hpath with
  | entry hpos => exact .entry (h.length ▸ hpos)
  | @step trail i j _ hfault hedge ih =>
    have hcode := h.code trail i ih
    refine .step ih ?_ ((edge_congr hcode).mp hedge)
    rw [← (h.cleanPath ih).2, ← fault_congr h.length h.maxLocals hcode]
    exact hfault

theorem SameWhereReached.symm (h : SameWhereReached m m') : SameWhereReached m' m where
  length := h.length.symm
  maxLocals := h.maxLocals.symm
  code := fun trail i hpath => (h.code trail i (h.of_cleanPath hpath)).symm

theorem SameWhereReached.illFormed (h : SameWhereReached m m') (hm : m.IllFormed) :
    m'.IllFormed := by
  obtain ⟨trail, i, hpath, hwrong⟩ := hm
  obtain ⟨hpath', hdepth⟩ := h.cleanPath hpath
  refine ⟨trail, i, hpath', ?_⟩
  rcases hwrong with hfault | ⟨other, hother, hne⟩
  · left
    rw [hdepth, fault_congr h.length h.maxLocals (h.code trail i hpath)]
    exact hfault
  · right
    obtain ⟨hother', hdepth'⟩ := h.cleanPath hother
    exact ⟨other, hother', by rwa [hdepth, hdepth']⟩

end MethodBody

/-! ## Verdicts -/

namespace FrameGraph

/-- A fixed point has no room for a fault, nor for two depths at one instruction. -/
theorem Solved.not_illFormed {g : FrameGraph} (hg : g.Solved) : ¬ g.body.IllFormed := by
  rintro ⟨trail, i, hpath, hwrong⟩
  obtain ⟨f, hf, hdepth, -⟩ := hg.covers hpath.path
  rcases hwrong with hfault | ⟨trail', hpath', hne⟩
  · obtain ⟨_, -, hno, -⟩ := hg.step i f hf
    rw [hdepth] at hno
    exact hno hfault
  · obtain ⟨f', hf', hdepth', -⟩ := hg.covers hpath'.path
    obtain rfl : f = f' := Option.some.inj (hf.symm.trans hf')
    exact hne (hdepth'.symm.trans hdepth)

/-- In whatever order a method is explored, it is rejected exactly if it is ill formed. -/
theorem explores_error_iff {m : MethodBody} {r : Except FrameError Exploration}
    (hr : Exploration.Explores m (.start m) r) :
    (∃ e, r = .error e) ↔ m.IllFormed := by
  constructor
  · rintro ⟨e, he⟩
    exact (hr.result (Exploration.invariant_start m)).2 e he
  · intro hill
    cases r with
    | error e => exact ⟨e, rfl⟩
    | ok s => exact absurd hill (solved_of_explores hr).not_illFormed

theorem build_eq_error_iff {m : MethodBody} {e : FrameError} :
    build m = .error e ↔
      Exploration.explore m (.start m) (Exploration.bounded_start m) = .error e := by
  unfold build
  split
  · next h => simp [h]
  · next h => simp [h]

theorem build_error_iff {m : MethodBody} : (∃ e, build m = .error e) ↔ m.IllFormed := by
  simp only [build_eq_error_iff]
  exact explores_error_iff (Exploration.explores_explore _ _ _)

/--
A method is rejected exactly if it is ill formed, the order of the exploration is irrelevant, and so
is the code that is not reached.
-/
theorem build_rejects_exactly_illFormed {m : MethodBody} :
    ((∃ e, build m = .error e) ↔ m.IllFormed) ∧
    (∀ r, Exploration.Explores m (.start m) r → ((∃ e, r = .error e) ↔ ∃ e, build m = .error e)) ∧
    (∀ m', m.SameWhereReached m' → ((∃ e, build m' = .error e) ↔ ∃ e, build m = .error e)) := by
  refine ⟨build_error_iff, fun r hr => ?_, fun m' hsame => ?_⟩
  · rw [build_error_iff]
    exact explores_error_iff hr
  · rw [build_error_iff, build_error_iff]
    exact ⟨hsame.symm.illFormed, hsame.illFormed⟩

/-- A loop that leaves one more value on the stack each time round. -/
def growingLoop : MethodBody where
  name := "growingLoop"
  descriptor := ⟨[], none⟩
  flags := .static
  maxLocals := 0
  code := #[.nop, .pushNull, .goto 0]

/-- The head of the loop is reached with two depths, so the method is rejected. -/
theorem build_rejects_growingLoop :
    (∃ e, build growingLoop = .error e) ∧ growingLoop.IllFormed := by
  have herror : (build growingLoop).toOption.isNone = true := by cbv
  have hexists : ∃ e, build growingLoop = .error e := by
    cases h : build growingLoop with
    | error e => exact ⟨e, rfl⟩
    | ok g => simp [h, Except.toOption] at herror
  exact ⟨hexists, build_rejects_exactly_illFormed.1.mp hexists⟩

end FrameGraph

end CallFold
