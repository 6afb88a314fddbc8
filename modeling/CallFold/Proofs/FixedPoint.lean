import CallFold.Proofs.Worklist

/-!
# A frame graph is a fixed point

The frames of a method that is not ill formed are closed under its instructions, and its tables hold
the edges of the instructions that have a frame (`FrameGraph.Solved`). By following a path one step
at a time it is seen that no path loses a producer (`Solved.covers`).
-/

namespace CallFold.FrameGraph

/--
The frames hold the entry frame, are closed under the instructions, and are justified. The tables
hold the edges of the instructions that have a frame.
-/
structure Solved (g : FrameGraph) : Prop where
  size : g.length = g.body.length
  entry : 0 < g.body.length →
    ∃ f, g.frame? 0 = some f ∧ (Frame.entry g.body.maxLocals).Below f
  step : ∀ i f, g.frame? i = some f → ∃ instruction, g.instruction? i = some instruction ∧
    ¬ g.body.Fault i f.depth ∧
    ∀ j ∈ instruction.successors i, ∃ f', g.frame? j = some f' ∧ (f.after i instruction).Below f'
  justified : ∀ i f, g.frame? i = some f → Exploration.Justified g.body i f
  successors : ∀ i j, j ∈ g.successors i ↔ (∃ f, g.frame? i = some f) ∧ g.body.Edge i j
  predecessors : ∀ i j, i ∈ g.predecessors j ↔ j ∈ g.successors i

theorem frame?_eq_some_iff {g : FrameGraph} {i : Nat} {f : Frame} :
    g.frame? i = some f ↔ g.frames[i]? = some (some f) :=
  Option.join_eq_some_iff

theorem lt_length_of_frame {g : FrameGraph} {i : Nat} {f : Frame} (h : g.frame? i = some f) :
    i < g.length :=
  (Array.getElem?_eq_some_iff.mp (frame?_eq_some_iff.mp h)).1

theorem node?_eq_some_iff {g : FrameGraph} {i : Nat} {f : Frame} {instruction : Instruction} :
    g.node? i = some (instruction, f) ↔
      g.instruction? i = some instruction ∧ g.frame? i = some f := by
  unfold node?
  split
  · next h h' => simp [h, h']
  · next h => simpa using h instruction f

theorem mem_successors_graph {m : MethodBody} {s : Exploration} {i j : Nat} :
    j ∈ (s.graph m).successors i ↔ j ∈ s.edges.successorsOf i := by
  unfold successors Exploration.graph Edges.successorsOf
  rw [Array.getD_eq_getD_getElem?, Array.getD_eq_getD_getElem?, Array.getElem?_map]
  cases s.edges.successors[i]? with
  | none => simp
  | some targets => exact IndexSet.mem_ofList

theorem mem_predecessors_graph {m : MethodBody} {s : Exploration} {i j : Nat} :
    i ∈ (s.graph m).predecessors j ↔ i ∈ s.edges.predecessorsOf j := by
  unfold predecessors Exploration.graph Edges.predecessorsOf
  rw [Array.getD_eq_getD_getElem?, Array.getD_eq_getD_getElem?, Array.getElem?_map]
  cases s.edges.predecessors[j]? with
  | none => rfl
  | some sources => exact IndexSet.mem_ofList

/-- Every order that ends with frames ends with a fixed point. -/
theorem solved_of_explores {m : MethodBody} {s : Exploration}
    (h : Exploration.Explores m (.start m) (.ok s)) : Solved (s.graph m) := by
  obtain ⟨hinv, hlist⟩ := (h.result (Exploration.invariant_start m)).1 s rfl
  -- nothing is left on the list, so everything was handed on and recorded
  have hsettled : ∀ i f, s.At i f → Exploration.HandedOn m s i f ∧ s.Recorded i := by
    intro i f hf
    rcases hinv.settled i f hf with hmem | hdone
    · rw [hlist] at hmem
      cases hmem
    · exact hdone
  have hrecorded : ∀ i, s.Recorded i ↔ ∃ f, (s.graph m).frame? i = some f := by
    intro i
    constructor
    · intro hi
      obtain ⟨f, hf⟩ := hinv.recorded i hi
      exact ⟨f, frame?_eq_some_iff.mpr hf⟩
    · rintro ⟨f, hf⟩
      exact (hsettled i f (frame?_eq_some_iff.mp hf)).2
  refine ⟨hinv.size, fun hpos => ?_, fun i f hf => ?_, fun i f hf => ?_, fun i j => ?_,
    fun i j => ?_⟩
  · obtain ⟨f, hf, hbelow⟩ := hinv.entry hpos
    exact ⟨f, frame?_eq_some_iff.mpr hf, hbelow⟩
  · have hat : s.At i f := frame?_eq_some_iff.mp hf
    obtain ⟨⟨instruction, hcode, haccepts, hchecked, hsucc⟩, -⟩ := hsettled i f hat
    refine ⟨instruction, hcode, ?_, fun j hj => ?_⟩
    · exact (not_fault_iff_accepts hcode (hinv.justified i f hat).length).mpr
        ⟨haccepts, hchecked⟩
    · obtain ⟨f', hf', hbelow⟩ := hsucc j hj
      exact ⟨f', frame?_eq_some_iff.mpr hf', hbelow⟩
  · exact hinv.justified i f (frame?_eq_some_iff.mp hf)
  · rw [mem_successors_graph, hinv.tables.successors]
    exact and_congr_left' (hrecorded i)
  · rw [mem_successors_graph, mem_predecessors_graph]
    exact hinv.tables.predecessors i j

theorem build_eq_ok_iff {m : MethodBody} {g : FrameGraph} :
    build m = .ok g ↔ ∃ s, Exploration.explore m (.start m) (Exploration.bounded_start m) = .ok s ∧
      g = s.graph m := by
  unfold build
  split
  · next e he => simp [he]
  · next s hs => simp [hs, eq_comm]

/-- What is read off the graph of a method is read off a graph. -/
theorem exists_of_build_map {α : Type} {m : MethodBody} {read : FrameGraph → α} {v : α}
    (h : (build m).toOption.map read = some v) : ∃ g, build m = .ok g ∧ read g = v := by
  cases hbuild : build m with
  | error e => simp [hbuild, Except.toOption] at h
  | ok g => exact ⟨g, rfl, by simpa [hbuild, Except.toOption] using h⟩

theorem body_of_build {m : MethodBody} {g : FrameGraph} (h : build m = .ok g) : g.body = m := by
  obtain ⟨s, -, rfl⟩ := build_eq_ok_iff.mp h
  rfl

theorem solved_of_build {m : MethodBody} {g : FrameGraph} (h : build m = .ok g) : g.Solved := by
  obtain ⟨s, hs, rfl⟩ := build_eq_ok_iff.mp h
  refine solved_of_explores ?_
  rw [← hs]
  exact Exploration.explores_explore _ _ _

/-! ## Following the control flow -/

variable {g : FrameGraph} {i j : Nat} {f : Frame} {instruction : Instruction}

theorem Solved.accepts (hg : g.Solved) (hf : g.frame? i = some f)
    (hi : g.instruction? i = some instruction) : f.Accepts instruction := by
  obtain ⟨instruction', hi', hfault, -⟩ := hg.step i f hf
  obtain rfl : instruction = instruction' := Option.some.inj (hi.symm.trans hi')
  exact ((not_fault_iff_accepts hi (hg.justified i f hf).length).mp hfault).1

theorem Solved.length_pos (hg : g.Solved) (hf : g.frame? i = some f) : 0 < g.body.length := by
  have hlt := lt_length_of_frame hf
  rw [hg.size] at hlt
  omega

/-- A set of producers includes the last producer, if there is one. -/
def Includes (set : IndexSet) (last : Option Nat) : Prop := ∀ p, last = some p → p ∈ set

/-- Along every path there are frames, and they include the last producers. -/
theorem Solved.covers (hg : g.Solved) {trail : List Nat} (h : g.body.Path trail i) :
    ∃ f, g.frame? i = some f ∧ f.depth = g.body.depthAfter trail ∧
      Slots.Related Includes f.view (g.body.lastProducers trail) := by
  induction h with
  | entry hpos =>
    obtain ⟨f, hf, hbelow⟩ := hg.entry hpos
    refine ⟨f, hf, hbelow.depth_eq.symm, ?_⟩
    refine hbelow.related (fun s t x hst hs p hp => hst p (hs p hp)) ⟨?_, List.Forall₂.nil⟩
    exact Slots.forall₂_replicate (fun p hp => by simp at hp) _
  | @step trail i j hpath hedge _ ih =>
    obtain ⟨f, hf, hdepth, hcovers⟩ := ih
    obtain ⟨instruction, hi, hfault, hsucc⟩ := hg.step i f hf
    have hj : j ∈ instruction.successors i := (MethodBody.edge_iff hi).mp hedge
    obtain ⟨f', hf', hbelow⟩ := hsucc j hj
    refine ⟨f', hf', ?_, ?_⟩
    · rw [← hbelow.depth_eq, Frame.depth_after (hg.accepts hf hi),
        MethodBody.depthAfter_cons hi, hdepth]
    · rw [MethodBody.lastProducers_cons hi]
      refine hbelow.related (fun s t x hst hs p hp => hst p (hs p hp))
        (Frame.related_after hcovers ?_ List.length_replicate ?_)
      -- of what is new, the instruction itself is the last producer and the only one in the frame
      · intro _ p hp
        exact IndexSet.mem_singleton.mpr (Option.some.inj hp).symm
      · intro x hx p hp
        rw [List.eq_of_mem_replicate hx] at hp
        exact IndexSet.mem_singleton.mpr (Option.some.inj hp).symm

end CallFold.FrameGraph
