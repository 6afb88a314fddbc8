import CallFold.Proofs.FixedPoint
import Mathlib

/-!
# Reaching producers

The frames of a method say exactly what its paths say: which instructions can be reached, how deep
the stack is there, and which instructions may have been the last to produce each slot. The edges
are those of the control flow, between instructions that can be reached.
-/

namespace CallFold.FrameGraph

variable {g : FrameGraph} {i j : Nat} {f : Frame}

/-! ## Frames -/

/-- An instruction has a frame exactly if a path leads to it. -/
theorem Solved.isSome_frame?_iff (hg : g.Solved) (i : Nat) :
    (g.frame? i).isSome = true ↔ ∃ trail, g.body.Path trail i := by
  constructor
  · intro h
    obtain ⟨f, hf⟩ := Option.isSome_iff_exists.mp h
    obtain ⟨trail, hpath, -⟩ := (hg.justified i f hf).arrival
    exact ⟨trail, hpath.path⟩
  · rintro ⟨trail, hpath⟩
    obtain ⟨f, hf, -⟩ := hg.covers hpath
    rw [hf]
    rfl

theorem Solved.covers_of_frame (hg : g.Solved) (hf : g.frame? i = some f) {trail : List Nat}
    (h : g.body.Path trail i) :
    f.depth = g.body.depthAfter trail ∧
      Slots.Related Includes f.view (g.body.lastProducers trail) := by
  obtain ⟨f', hf', hcovers⟩ := hg.covers h
  obtain rfl : f = f' := Option.some.inj (hf.symm.trans hf')
  exact hcovers

/-- A place has a producer exactly if that was the last one to produce it on some path. -/
theorem Solved.mem_iff (hg : g.Solved) (hf : g.frame? i = some f) (place : Place)
    {set : IndexSet} (hset : f.view.get? place = some set) (p : Nat) :
    p ∈ set ↔ ∃ trail, g.body.Path trail i ∧
      (g.body.lastProducers trail).get? place = some (some p) := by
  constructor
  · intro hp
    obtain ⟨trail, hpath, -, hlast⟩ := (hg.justified i f hf).producer place set p hset hp
    exact ⟨trail, hpath.path, hlast⟩
  · rintro ⟨trail, hpath, hlast⟩
    obtain ⟨last, hlast', hincludes⟩ := (hg.covers_of_frame hf hpath).2.get? hset
    exact hincludes p (Option.some.inj (hlast'.symm.trans hlast))

theorem Solved.mem_slot_iff (hg : g.Solved) (hf : g.frame? i = some f) {slot : Nat}
    {set : IndexSet} (hset : f.slot? slot = some set) (p : Nat) :
    p ∈ set ↔ ∃ trail, g.body.Path trail i ∧ g.body.lastWriter? slot trail = some p := by
  have hslot : slot < g.body.maxLocals := by
    rw [← (hg.justified i f hf).length]
    exact (List.getElem?_eq_some_iff.mp hset).1
  rw [hg.mem_iff hf (.slot slot) hset p]
  simp only [Slots.get?, MethodBody.locals_lastProducers hslot, Option.some.injEq]

theorem Solved.mem_stackAt_iff (hg : g.Solved) (hf : g.frame? i = some f) {position : Nat}
    {set : IndexSet} (hset : f.stackAt? position = some set) (p : Nat) :
    p ∈ set ↔ ∃ trail, g.body.Path trail i ∧
      (g.body.lastProducers trail).stack.reverse[position]? = some (some p) := by
  have hlt : position < f.stack.length := by
    simpa using (List.getElem?_eq_some_iff.mp hset).1
  rw [Frame.stackAt?, List.getElem?_reverse hlt] at hset
  rw [hg.mem_iff hf (.stack (f.stack.length - 1 - position)) hset p]
  refine exists_congr fun trail => and_congr_right fun hpath => ?_
  -- counted from the bottom, the place is the same on every path, as all stacks are equally deep
  have hlength := (hg.covers_of_frame hf hpath).2.stack.length_eq
  simp only [Frame.view] at hlength
  rw [List.getElem?_reverse (by omega), ← hlength]
  rfl

/-! ## Edges -/

theorem Solved.frame?_of_mem_successors (hg : g.Solved) (h : j ∈ g.successors i) :
    ∃ f, g.frame? i = some f :=
  ((hg.successors i j).mp h).1

/-- The edges out of an instruction that can be reached are those of the control flow. -/
theorem Solved.mem_successors_iff (hg : g.Solved) (hf : g.frame? i = some f) :
    j ∈ g.successors i ↔ g.body.Edge i j := by
  rw [hg.successors]
  exact and_iff_right ⟨f, hf⟩

theorem Solved.successors_eq (hg : g.Solved) {instruction : Instruction}
    (hi : g.instruction? i = some instruction) (hf : g.frame? i = some f) :
    g.successors i = instruction.successors i := by
  refine IndexSet.ext_mem fun j => ?_
  rw [hg.mem_successors_iff hf]
  exact MethodBody.edge_iff hi

theorem Solved.successors_of_no_frame (hg : g.Solved) (h : g.frame? i = none) :
    g.successors i = .empty := by
  refine IndexSet.ext_mem fun j => ⟨fun hj => ?_, fun hj => absurd hj IndexSet.not_mem_empty⟩
  obtain ⟨f, hf⟩ := hg.frame?_of_mem_successors hj
  rw [h] at hf
  cases hf

/-- An edge leads to an instruction that can be reached. -/
theorem Solved.frame?_of_edge (hg : g.Solved) (h : j ∈ g.successors i) :
    ∃ f, g.frame? j = some f := by
  obtain ⟨f, hf⟩ := hg.frame?_of_mem_successors h
  obtain ⟨instruction, hi, -, hsucc⟩ := hg.step i f hf
  rw [hg.successors_eq hi hf] at h
  obtain ⟨f', hf', -⟩ := hsucc j h
  exact ⟨f', hf'⟩

theorem Solved.predecessors_of_no_frame (hg : g.Solved) (h : g.frame? j = none) :
    g.predecessors j = [] := by
  refine List.eq_nil_iff_forall_not_mem.mpr fun i hi => ?_
  obtain ⟨f, hf⟩ := hg.frame?_of_edge ((hg.predecessors i j).mp hi)
  rw [h] at hf
  simp at hf

/-! ## Exactness -/

/-- The frames and the edges of a graph are what the paths through a method say. -/
structure Exact (m : MethodBody) (g : FrameGraph) : Prop where
  /-- There is a frame where a path leads. -/
  reachable : ∀ i, (g.frame? i).isSome = true ↔ ∃ trail, m.Path trail i
  length_locals : ∀ i f, g.frame? i = some f → f.locals.length = m.maxLocals
  depth : ∀ i f trail, g.frame? i = some f → m.Path trail i → f.depth = m.depthAfter trail
  /-- The producers of a local slot are the instructions that were the last to write it. -/
  slot : ∀ i f slot set p, g.frame? i = some f → f.slot? slot = some set →
    (p ∈ set ↔ ∃ trail, m.Path trail i ∧ m.lastWriter? slot trail = some p)
  /-- The producers of a stack slot, counted from the bottom, are those that produced it last. -/
  stack : ∀ i f position set p, g.frame? i = some f → f.stackAt? position = some set →
    (p ∈ set ↔ ∃ trail, m.Path trail i ∧
      (m.lastProducers trail).stack.reverse[position]? = some (some p))
  ascending : ∀ i, (g.successors i).toList.Pairwise (· < ·)
  successors : ∀ i j, (g.frame? i).isSome = true → (j ∈ g.successors i ↔ m.Edge i j)
  predecessors : ∀ i j, j ∈ g.successors i ↔ i ∈ g.predecessors j
  unreachable : ∀ i, g.frame? i = none → g.successors i = .empty ∧ g.predecessors i = []

/-- The frame graph of a method holds exactly the producers that reach each instruction. -/
theorem build_exact {m : MethodBody} {g : FrameGraph} (h : build m = .ok g) : Exact m g := by
  have hg := solved_of_build h
  obtain rfl := body_of_build h
  exact {
    reachable := hg.isSome_frame?_iff
    length_locals := fun i f hf => (hg.justified i f hf).length
    depth := fun i f trail hf hpath => (hg.covers_of_frame hf hpath).1
    slot := fun i f slot set p hf hset => hg.mem_slot_iff hf hset p
    stack := fun i f position set p hf hset => hg.mem_stackAt_iff hf hset p
    ascending := fun i => (g.successors i).ascending
    successors := by
      intro i j hsome
      obtain ⟨f, hf⟩ := Option.isSome_iff_exists.mp hsome
      exact hg.mem_successors_iff hf
    predecessors := fun i j => (hg.predecessors i j).symm
    unreachable := fun i hnone =>
      ⟨hg.successors_of_no_frame hnone, hg.predecessors_of_no_frame hnone⟩ }

/-- A loop that counts a local slot down, and an instruction after it that is never reached. -/
def countdown : MethodBody where
  name := "countdown"
  descriptor := ⟨[], none⟩
  flags := .static
  maxLocals := 1
  code := #[.intConst 3, .store 0, .load 0, .branch .eq 6, .increment 0 (-1), .goto 2, .ret false,
    .goto 7]

/-- Both writers of the slot reach the loop, and nothing reaches the last instruction. -/
theorem build_exact_countdown : ∃ g, build countdown = .ok g ∧ Exact countdown g ∧
    (g.frame? 2).map (·.locals) = some [.ofList [1, 4]] ∧ g.frame? 7 = none := by
  obtain ⟨g, hbuild, hread⟩ := exists_of_build_map (m := countdown)
    (show (build countdown).toOption.map
      (fun g => ((g.frame? 2).map (·.locals), g.frame? 7)) =
        some (some [.ofList [1, 4]], none) by cbv)
  obtain ⟨hframe, hnone⟩ := Prod.mk.inj hread
  exact ⟨g, hbuild, build_exact hbuild, hframe, hnone⟩

end CallFold.FrameGraph
