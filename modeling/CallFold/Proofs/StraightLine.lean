import CallFold.Proofs.ArrayCriterion
import Mathlib

/-!
# Straight-line windows

Where an array is found constant, every instruction between its allocation and the call has a single
successor. That makes the window a straight line as far as conditional branches are concerned, but a
jump has a single successor as well, wherever it leads. Control passes the window in the order of
the code exactly if its jumps lead to the next instruction (`Scope.inferArray_straight_iff`), and
this is not checked (`Scope.inferArray_skips_store`).
-/

namespace CallFold

/-- Where an unconditional jump leads. A switch with a single target is one. -/
def Instruction.jumpTarget? : Instruction → Option Nat
  | .goto target => some target
  | .switch default _ => some default
  | _ => none

namespace MethodBody

variable {m : MethodBody} {a c i : Nat} {recent earlier : List Nat}

/-- Every unconditional jump from `a` up to `c` leads to the next instruction. -/
def JumpsAhead (m : MethodBody) (a c : Nat) : Prop :=
  ∀ j, a ≤ j → j < c → ∀ target ∈ m.code[j]?.bind Instruction.jumpTarget?, target = j + 1

instance : Decidable (m.JumpsAhead a c) :=
  inferInstanceAs (Decidable (∀ j, a ≤ j → j < c → _))

theorem mem_branchTargets_of_jumpTarget {instruction : Instruction} {target : Nat}
    (h : instruction.jumpTarget? = some target) : target ∈ instruction.branchTargets := by
  cases instruction <;> simp_all [Instruction.jumpTarget?, Instruction.branchTargets]

/-- What names targets and does not fall through jumps to one of them. -/
theorem exists_jumpTarget {instruction : Instruction} {target : Nat}
    (h : target ∈ instruction.branchTargets) (hfalls : instruction.fallsThrough = false) :
    ∃ target', instruction.jumpTarget? = some target' := by
  cases instruction <;>
    simp_all [Instruction.jumpTarget?, Instruction.branchTargets, Instruction.fallsThrough,
      Instruction.flow, Flow.fallsThrough]

/-- With one way to go on, all edges lead there. -/
theorem edge_unique {j n n' : Nat} (hone : ∃! next, m.Flow j next) (h : m.Edge j n)
    (h' : m.Edge j n') : n = n' := by
  have ⟨_, ⟨hreached, _⟩, _⟩ := hone
  exact hone.unique ⟨hreached, h⟩ ⟨hreached, h'⟩

/-- With one way to go on everywhere, nothing leads astray if no jump does. -/
theorem sealed_iff_jumpsAhead (hone : ∀ j, a ≤ j → j < c → ∃! next, m.Flow j next) :
    m.Sealed a c ↔ m.JumpsAhead a c := by
  constructor
  · intro hsealed j hj hlt target hjump
    obtain ⟨instruction, hcode, htarget⟩ := Option.bind_eq_some_iff.mp hjump
    exact hsealed j hj hlt target ⟨instruction, hcode,
      Or.inr (mem_branchTargets_of_jumpTarget htarget)⟩
  · intro hjumps j hj hlt k hedge
    have ⟨instruction, hcode, hk⟩ := hedge
    by_cases hfalls : instruction.fallsThrough = true
    · exact edge_unique (hone j hj hlt) hedge ⟨instruction, hcode, Or.inl ⟨hfalls, rfl⟩⟩
    · rcases hk with ⟨hfalls', -⟩ | hk
      · exact absurd hfalls' hfalls
      · obtain ⟨target, htarget⟩ := exists_jumpTarget hk (Bool.not_eq_true _ ▸ hfalls)
        rw [← hjumps j hj hlt target (Option.bind_eq_some_iff.mpr ⟨instruction, hcode, htarget⟩)]
        exact edge_unique (hone j hj hlt) hedge ⟨instruction, hcode,
          Or.inr (mem_branchTargets_of_jumpTarget htarget)⟩

/-- Control that has come in a straight line went from each instruction to the next. -/
theorem Path.edge_of_straight (h : m.Path (recent ++ a :: earlier) i) (hai : a < i)
    (hstraight : a :: recent.reverse = List.range' a (i - a)) {j : Nat} (hj : a ≤ j)
    (hlt : j < i) : m.Edge j (j + 1) := by
  induction recent generalizing i with
  | nil =>
    have hlength := congrArg List.length hstraight
    simp only [List.reverse_nil, List.length_cons, List.length_nil, List.length_range'] at hlength
    obtain rfl : j = a := by omega
    obtain rfl : i = j + 1 := by omega
    cases h with
    | step _ hedge _ => exact hedge
  | cons last recent ih =>
    cases h with
    | step hpath hedge _ =>
      have hlength := congrArg List.length hstraight
      simp only [List.length_cons, List.length_reverse, List.length_range'] at hlength
      rw [List.reverse_cons, ← List.cons_append, show i - a = i - a - 1 + 1 by omega,
        List.range'_1_concat] at hstraight
      obtain ⟨hrest, hlast⟩ := List.append_inj' hstraight rfl
      have hlast : last = a + (i - a - 1) := List.singleton_inj.mp hlast
      by_cases heq : j = last
      · obtain rfl : i = j + 1 := by omega
        exact heq ▸ hedge
      · refine ih hpath (by omega) ?_ (by omega)
        rw [hrest, hlast]
        congr 1
        omega

end MethodBody

namespace Scope

variable {s : Scope} {k : ConstantKind} {o : ArrayOrigin} {set : IndexSet} {site : Nat}
  {list : List k.Value} {recent earlier : List Nat}

/--
Control that comes from the allocation to the call passes everything between them once and in the
order of the code, exactly if the jumps between them lead to the next instruction.
-/
theorem inferArray_straight_iff {m : MethodBody} (hbuild : FrameGraph.build m = .ok s.graph)
    (horigin : s.graph.origin? s.maxTraceDepth set = some o)
    (hinfer : s.inferArray k set site = some list)
    (hpath : m.Path (recent ++ o.allocation :: earlier) site) (hfirst : site ∉ recent) :
    (o.allocation :: recent.reverse = List.range' o.allocation (site - o.allocation) ↔
      m.JumpsAhead o.allocation site) ∧
    (m.JumpsAhead o.allocation site →
      ∀ j, o.allocation < j → j < site → recent.count j = 1) := by
  have hg := FrameGraph.solved_of_build hbuild
  obtain rfl := FrameGraph.body_of_build hbuild
  obtain ⟨p, chain, harray⟩ :=
    constantArray_of_found hg horigin (found_of_inferArray horigin hinfer)
  have hbefore := harray.before
  rw [← MethodBody.sealed_iff_jumpsAhead harray.straight]
  have hstraight : s.graph.body.Sealed o.allocation site →
      o.allocation :: recent.reverse = List.range' o.allocation (site - o.allocation) :=
    fun hsealed => (hpath.straight_of_sealed hsealed hbefore hfirst).2.2
  refine ⟨⟨fun hline j hj hlt next hedge => ?_, hstraight⟩, fun hsealed j hj hlt => ?_⟩
  · -- the next instruction is one way to go on, and there is only one
    have hnext := hpath.edge_of_straight hbefore hline hj hlt
    exact MethodBody.edge_unique (harray.straight j hj hlt) hedge hnext
  · have hline := hstraight hsealed
    have hnodup : (o.allocation :: recent.reverse).Nodup := hline ▸ List.nodup_range'
    have hmem : j ∈ o.allocation :: recent.reverse := by
      rw [hline, List.mem_range'_1]
      omega
    rw [← List.count_reverse]
    exact List.count_eq_one_of_mem (List.nodup_cons.mp hnodup).2
      (List.mem_of_ne_of_mem (Nat.ne_of_gt hj) hmem)

/-- Fills an array with jumps that lead to the next instruction in between, and prints it. -/
def fillWithJumps : MethodBody where
  name := "fillWithJumps"
  descriptor := ⟨[.primitive .int], none⟩
  flags := .static
  maxLocals := 1
  code := #[.intConst 1, .newArray (.object "java/lang/String"), .goto 3, .dup, .intConst 0,
    .ldc (.text "x"), .arrayStore, .load 0, .branch .eq 9, .invoke Machine.printAll, .ret false]

theorem path_fillWithJumps : fillWithJumps.Path [8, 7, 6, 5, 4, 3, 2, 1, 0] 9 := by
  have h₀ : fillWithJumps.Path [] 0 := .entry (by decide)
  have h₁ := h₀.step (j := 1) ⟨_, rfl, Or.inl ⟨rfl, rfl⟩⟩ (by decide)
  have h₂ := h₁.step (j := 2) ⟨_, rfl, Or.inl ⟨rfl, rfl⟩⟩ (by decide)
  have h₃ := h₂.step (j := 3) ⟨_, rfl, Or.inr (by decide)⟩ (by decide)
  have h₄ := h₃.step (j := 4) ⟨_, rfl, Or.inl ⟨rfl, rfl⟩⟩ (by decide)
  have h₅ := h₄.step (j := 5) ⟨_, rfl, Or.inl ⟨rfl, rfl⟩⟩ (by decide)
  have h₆ := h₅.step (j := 6) ⟨_, rfl, Or.inl ⟨rfl, rfl⟩⟩ (by decide)
  have h₇ := h₆.step (j := 7) ⟨_, rfl, Or.inl ⟨rfl, rfl⟩⟩ (by decide)
  have h₈ := h₇.step (j := 8) ⟨_, rfl, Or.inl ⟨rfl, rfl⟩⟩ (by decide)
  exact h₈.step ⟨_, rfl, Or.inr (by decide)⟩ (by decide)

/-- What is inferred of an array that a method prints, and where the array comes from. -/
theorem exists_origin_of_infer (m : MethodBody) (site producer allocation : Nat)
    (found : List String)
    (h : (FrameGraph.build m).toOption.map (fun g =>
      ((g.origin? 8 (.singleton producer)).map (·.allocation),
        (Machine.quietScope g Machine.printSafely).inferArray .text (.singleton producer) site)) =
      some (some allocation, some found)) :
    ∃ g o, FrameGraph.build m = .ok g ∧ g.origin? 8 (.singleton producer) = some o ∧
      o.allocation = allocation ∧
      (Machine.quietScope g Machine.printSafely).inferArray .text (.singleton producer) site =
        some found := by
  obtain ⟨g, hbuild, hread⟩ := FrameGraph.exists_of_build_map h
  obtain ⟨horigin, hinfer⟩ := Prod.mk.inj hread
  obtain ⟨o, ho, hallocation⟩ := Option.map_eq_some_iff.mp horigin
  exact ⟨g, o, hbuild, ho, hallocation, hinfer⟩

/-- The jumps lead to the next instruction, and the window is passed in the order of the code. -/
theorem inferArray_straight_iff_fillWithJumps : ∃ g o,
    FrameGraph.build fillWithJumps = .ok g ∧ g.origin? 8 (.singleton 1) = some o ∧
    (Machine.quietScope g Machine.printSafely).inferArray .text (.singleton 1) 9 = some ["x"] ∧
    fillWithJumps.JumpsAhead o.allocation 9 ∧
    o.allocation :: [8, 7, 6, 5, 4, 3, 2].reverse = List.range' o.allocation (9 - o.allocation) ∧
    [8, 7, 6, 5, 4, 3, 2].count 6 = 1 := by
  obtain ⟨g, o, hbuild, ho, hallocation, hinfer⟩ :=
    exists_origin_of_infer fillWithJumps 9 1 1 ["x"] (by cbv)
  have hpath : fillWithJumps.Path ([8, 7, 6, 5, 4, 3, 2] ++ o.allocation :: [0]) 9 := by
    rw [hallocation]
    exact path_fillWithJumps
  have hjumps : fillWithJumps.JumpsAhead o.allocation 9 := by
    rw [hallocation]
    decide
  obtain ⟨hline, honce⟩ := inferArray_straight_iff (s := Machine.quietScope g Machine.printSafely)
    hbuild ho hinfer hpath (by decide)
  exact ⟨g, o, hbuild, ho, hinfer, hjumps, hline.mpr hjumps,
    honce hjumps 6 (by omega) (by decide)⟩

/--
The array is found constant although control comes to the call for the first time without passing
the only store of the window.
-/
theorem inferArray_skips_store : ∃ g o,
    FrameGraph.build Machine.printThenFill = .ok g ∧ g.origin? 8 (.singleton 8) = some o ∧
    (Machine.quietScope g Machine.printSafely).inferArray .text (.singleton 8) 9 = some ["x"] ∧
    Machine.printThenFill.Path ([8, 3, 2] ++ o.allocation :: [0]) 9 ∧
    o.allocation ∉ [8, 3, 2] ∧ 9 ∉ [8, 3, 2] ∧
    o.allocation < 7 ∧ 7 < 9 ∧ Machine.printThenFill.code[7]? = some .arrayStore ∧
    7 ∉ [8, 3, 2] := by
  obtain ⟨g, o, hbuild, ho, hallocation, hinfer⟩ :=
    exists_origin_of_infer Machine.printThenFill 9 8 1 ["x"] (by cbv)
  have h₀ : Machine.printThenFill.Path [] 0 := .entry (by decide)
  have h₁ := h₀.step (j := 1) ⟨_, rfl, Or.inl ⟨rfl, rfl⟩⟩ (by decide)
  have h₂ := h₁.step (j := 2) ⟨_, rfl, Or.inl ⟨rfl, rfl⟩⟩ (by decide)
  have h₃ := h₂.step (j := 3) ⟨_, rfl, Or.inl ⟨rfl, rfl⟩⟩ (by decide)
  have h₈ := h₃.step (j := 8) ⟨_, rfl, Or.inr (by decide)⟩ (by decide)
  have h₉ := h₈.step (j := 9) ⟨_, rfl, Or.inl ⟨rfl, rfl⟩⟩ (by decide)
  refine ⟨g, o, hbuild, ho, hinfer, ?_⟩
  rw [hallocation]
  exact ⟨h₉, by decide, by decide, by decide, by decide, rfl, by decide⟩

end Scope

end CallFold
