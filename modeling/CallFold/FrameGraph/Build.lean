import CallFold.Frame.Transfer
import CallFold.FrameGraph
import CallFold.FrameGraph.Agenda
import CallFold.FrameGraph.Edges

/-!
# Computing the frames of a method

The frames are the least ones that the entry frame and the instructions allow. They are found with a
worklist: the instruction on top is executed on its frame, the result is merged into the frames of
its successors, in ascending order, and each successor whose frame changed goes on top of the list
unless it is on it already. When an instruction is executed for the first time, its edges are
recorded.

## Termination

`explore` needs no fuel. An instruction goes onto the list only when its frame is new or has grown,
so each step that does not just shorten the list makes one of these smaller, in this order:

* `unreached` — the number of instructions without a frame
* `slack` — the number of producers that are missing from the frames there are
-/

namespace CallFold

/-- Where control goes from an instruction, if all of it lies within the method. -/
def checkedSuccessors (length index : Nat) (instruction : Instruction) :
    Except FrameError IndexSet :=
  match instruction.branchTargets.find? (length ≤ ·) with
  | some target => .error (.targetOutOfRange target index length)
  | none =>
    if instruction.fallsThrough && length ≤ index + 1 then .error (.fallsOffEnd index)
    else .ok (instruction.successors index)

/-- The frames found so far, the instructions still to be executed, and the edges recorded. -/
structure Exploration where
  frames : Array (Option Frame)
  agenda : Agenda
  edges : Edges
  capacity_agenda : agenda.capacity = frames.size

namespace Exploration

/-- The instructions still to be executed, the next one first. -/
abbrev worklist (s : Exploration) : List Nat := s.agenda.list

/-- No frames, nothing to execute and no edges. -/
def bare (m : MethodBody) : Exploration where
  frames := Array.replicate m.length none
  agenda := .empty m.length
  edges := .none m.length
  capacity_agenda := Array.size_replicate.symm

/-- Gives an instruction a frame and sees to it that the instruction is on the list. -/
def update (s : Exploration) (index : Nat) (frame : Frame) : Exploration where
  frames := s.frames.setIfInBounds index (some frame)
  agenda := s.agenda.push index
  edges := s.edges
  capacity_agenda := by rw [Agenda.capacity_push, Array.size_setIfInBounds, s.capacity_agenda]

/-- Takes an instruction off the list. -/
def without (s : Exploration) (index : Nat) : Exploration where
  frames := s.frames
  agenda := s.agenda.erase index
  edges := s.edges
  capacity_agenda := by rw [Agenda.capacity_erase, s.capacity_agenda]

/-- Records where control goes from an instruction. -/
def record (s : Exploration) (index : Nat) (targets : IndexSet) : Exploration :=
  { s with edges := s.edges.record index targets.toList }

/-- The start: the entry frame, and the first instruction to execute, if there is one. -/
def start (m : MethodBody) : Exploration := (bare m).update 0 (.entry m.maxLocals)

/-- Merges a frame into that of a successor. -/
def deliver (incoming : Frame) (s : Exploration) (target : Nat) :
    Except FrameError Exploration :=
  match s.frames[target]? with
  | some (some present) =>
    match present.merge incoming target with
    | (.ok true, merged) => .ok (s.update target merged)
    | (.ok false, _) => .ok s
    | (.error e, _) => .error e
  | some none => .ok (s.update target incoming)
  | none => .ok s

/-- Merges a frame into those of all successors. -/
def deliverAll (incoming : Frame) : List Nat → Exploration → Except FrameError Exploration
  | [], s => .ok s
  | target :: rest, s =>
    match s.deliver incoming target with
    | .error e => .error e
    | .ok s' => deliverAll incoming rest s'

/-- Executes an instruction and hands the resulting frame to its successors. -/
def visit (m : MethodBody) (s : Exploration) (index : Nat) : Except FrameError Exploration :=
  match s.frames[index]?.join, m.code[index]? with
  | some frame, some instruction =>
    match frame.execute index instruction with
    | .error e => .error e
    | .ok after =>
      match checkedSuccessors m.length index instruction with
      | .error e => .error e
      | .ok targets => deliverAll after targets.toList (s.record index targets)
  | _, _ => .ok s

/-! ## The measure -/

/-- Counts an instruction without a frame. -/
def frameless : Option Frame → Nat
  | some _ => 0
  | none => 1

/-- The number of instructions without a frame. -/
def unreached (s : Exploration) : Nat := totalWeight frameless s.frames.toList

/-- How many producers below `n` are missing from the frame of an instruction. -/
def frameSlack (n : Nat) : Option Frame → Nat
  | some f => f.missing n
  | none => 0

/-- How many producers below `n` are missing from the frames. -/
def slack (n : Nat) (s : Exploration) : Nat := totalWeight (frameSlack n) s.frames.toList

/-- Neither the frames nor the list changed, or the measure went down. -/
def Advances (n : Nat) (s s' : Exploration) : Prop :=
  (s'.frames = s.frames ∧ s'.worklist = s.worklist) ∨ s'.unreached < s.unreached ∨
    s'.unreached = s.unreached ∧ s'.slack n < s.slack n

theorem Advances.refl (n : Nat) (s : Exploration) : Advances n s s := Or.inl ⟨rfl, rfl⟩

theorem Advances.trans {n : Nat} {s s' s'' : Exploration} (h : Advances n s s')
    (h' : Advances n s' s'') : Advances n s s'' := by
  unfold Advances unreached slack at *
  rcases h with ⟨hframes, hlist⟩ | h
  · rw [hframes, hlist] at h'
    exact h'
  · rcases h' with ⟨hframes, -⟩ | h'
    · rw [hframes]
      exact Or.inr h
    · exact Or.inr (by omega)

theorem toList_frames_update (s : Exploration) (index : Nat) (frame : Frame) :
    (s.update index frame).frames.toList = s.frames.toList.set index (some frame) := by
  simp [update]

/-- A first frame leaves one instruction less without one. -/
theorem unreached_update_new {s : Exploration} {index : Nat} (frame : Frame)
    (h : s.frames[index]? = some none) : (s.update index frame).unreached + 1 = s.unreached := by
  have hlist : s.frames.toList[index]? = some none := by simpa using h
  have hcount := totalWeight_set frameless hlist (some frame)
  simp only [unreached, toList_frames_update]
  simp only [frameless] at hcount
  omega

theorem unreached_update_grown {s : Exploration} {index : Nat} {present : Frame} (frame : Frame)
    (h : s.frames[index]? = some (some present)) :
    (s.update index frame).unreached = s.unreached := by
  have hlist : s.frames.toList[index]? = some (some present) := by simpa using h
  have hcount := totalWeight_set frameless hlist (some frame)
  simp only [unreached, toList_frames_update]
  simp only [frameless] at hcount
  omega

/-- A frame in place of what was there changes the missing producers by the difference. -/
theorem slack_update {s : Exploration} {index : Nat} {old : Option Frame} (n : Nat) (frame : Frame)
    (h : s.frames[index]? = some old) :
    (s.update index frame).slack n + frameSlack n old = s.slack n + frame.missing n := by
  have hlist : s.frames.toList[index]? = some old := by simpa using h
  simp only [slack, toList_frames_update]
  exact totalWeight_set (frameSlack n) hlist (some frame)

theorem advances_update_new {n : Nat} {s : Exploration} {index : Nat} (frame : Frame)
    (h : s.frames[index]? = some none) : Advances n s (s.update index frame) := by
  have hcount := unreached_update_new frame h
  exact Or.inr (Or.inl (by omega))

/-- A frame with fewer missing producers leaves fewer missing in all. -/
theorem advances_update_grown {n : Nat} {s : Exploration} {index : Nat} {present frame : Frame}
    (h : s.frames[index]? = some (some present)) (hlt : frame.missing n < present.missing n) :
    Advances n s (s.update index frame) := by
  have hslack := slack_update n frame h
  simp only [frameSlack] at hslack
  exact Or.inr (Or.inr ⟨unreached_update_grown frame h, by omega⟩)

theorem merge_eq_ok {f g merged : Frame} {index : Nat} {changed : Bool}
    (h : f.merge g index = (.ok changed, merged)) : merged = f.join g ∧ changed = f.grows g := by
  unfold Frame.merge at h
  split at h
  · simp only [Prod.mk.injEq, Except.ok.injEq] at h
    exact ⟨h.2.symm, h.1.symm⟩
  · simp at h

theorem advances_deliver {n : Nat} {incoming : Frame} {s s' : Exploration} {target : Nat}
    (hin : incoming.Bounded n) (h : s.deliver incoming target = .ok s') : Advances n s s' := by
  unfold deliver at h
  split at h
  · next present hpresent =>
    split at h
    · next merged hmerge =>
      obtain ⟨rfl, hgrows⟩ := merge_eq_ok hmerge
      rw [← Except.ok.inj h]
      exact advances_update_grown hpresent (Frame.missing_join_lt hgrows.symm hin)
    · exact Except.ok.inj h ▸ .refl n s
    · simp at h
  · next hnone =>
    rw [← Except.ok.inj h]
    exact advances_update_new incoming hnone
  · exact Except.ok.inj h ▸ .refl n s

theorem advances_deliverAll {n : Nat} {incoming : Frame} (hin : incoming.Bounded n) :
    ∀ (targets : List Nat) (s s' : Exploration),
      deliverAll incoming targets s = .ok s' → Advances n s s'
  | [], s, _, h => Except.ok.inj h ▸ .refl n s
  | target :: rest, s, s', h => by
    rw [deliverAll] at h
    split at h
    · simp at h
    · next s₁ hdeliver =>
      exact (advances_deliver hin hdeliver).trans (advances_deliverAll hin rest s₁ s' h)

/-! ## No producer beyond the method -/

/-- Every producer in the frames is an index below `n`. -/
def Bounded (n : Nat) (s : Exploration) : Prop :=
  ∀ f, some f ∈ s.frames.toList → f.Bounded n

theorem bounded_of_getElem? {n index : Nat} {s : Exploration} {f : Frame} (hs : s.Bounded n)
    (h : s.frames[index]? = some (some f)) : f.Bounded n :=
  hs f (List.mem_of_getElem? (i := index) (by simpa using h))

theorem bounded_start (m : MethodBody) : (start m).Bounded m.length := by
  intro f hf
  simp only [start, bare, update, Array.toList_setIfInBounds] at hf
  rcases List.mem_or_eq_of_mem_set hf with hf | hf
  · simp at hf
  · rw [Option.some.inj hf]; exact Frame.bounded_entry _ _

theorem bounded_update {n index : Nat} {s : Exploration} {frame : Frame} (hs : s.Bounded n)
    (hf : frame.Bounded n) : (s.update index frame).Bounded n := by
  intro f hmem
  rw [toList_frames_update] at hmem
  rcases List.mem_or_eq_of_mem_set hmem with hmem | heq
  · exact hs f hmem
  · rw [Option.some.inj heq]; exact hf

theorem bounded_deliver {n target : Nat} {incoming : Frame} {s s' : Exploration}
    (hs : s.Bounded n) (hin : incoming.Bounded n) (h : s.deliver incoming target = .ok s') :
    s'.Bounded n := by
  unfold deliver at h
  split at h
  · next present hpresent =>
    split at h
    · next merged hmerge =>
      obtain ⟨rfl, _⟩ := merge_eq_ok hmerge
      rw [← Except.ok.inj h]
      exact bounded_update hs (Frame.bounded_join (bounded_of_getElem? hs hpresent) hin)
    · rw [← Except.ok.inj h]; exact hs
    · simp at h
  · rw [← Except.ok.inj h]; exact bounded_update hs hin
  · rw [← Except.ok.inj h]; exact hs

theorem bounded_deliverAll {n : Nat} {incoming : Frame} (hin : incoming.Bounded n) :
    ∀ (targets : List Nat) (s s' : Exploration), s.Bounded n →
      deliverAll incoming targets s = .ok s' → s'.Bounded n
  | [], _, _, hs, h => Except.ok.inj h ▸ hs
  | target :: rest, s, s', hs, h => by
    rw [deliverAll] at h
    split at h
    · simp at h
    · next s₁ hdeliver =>
      exact bounded_deliverAll hin rest s₁ s' (bounded_deliver hs hin hdeliver) h

/-- A visit keeps the producers within the method and makes the measure smaller, or adds nothing. -/
theorem visit_eq_ok {m : MethodBody} {s s' : Exploration} {index : Nat} (hs : s.Bounded m.length)
    (h : s.visit m index = .ok s') : s'.Bounded m.length ∧ Advances m.length s s' := by
  unfold visit at h
  split at h
  · next frame instruction hframe hinstr =>
    have hindex : index < m.length := (Array.getElem?_eq_some_iff.mp hinstr).1
    have hbound : frame.Bounded m.length :=
      bounded_of_getElem? hs (Option.join_eq_some_iff.mp hframe)
    split at h
    · simp at h
    · next after hexec =>
      have hafter := Frame.bounded_execute hbound hindex hexec
      split at h
      · simp at h
      · next targets _ =>
        exact ⟨bounded_deliverAll hafter _ (s.record index targets) _ hs h,
          advances_deliverAll hafter _ (s.record index targets) _ h⟩
  · rw [← Except.ok.inj h]; exact ⟨hs, .refl _ s⟩

/-! ## The fixed point -/

/-- Executes instructions until none is left on the list. -/
def explore (m : MethodBody) (s : Exploration) (hs : s.Bounded m.length) :
    Except FrameError Exploration :=
  match _hlist : s.worklist with
  | [] => .ok s
  | index :: _ =>
    match h : visit m (s.without index) index with
    | .error e => .error e
    | .ok s' => explore m s' (visit_eq_ok (s := s.without index) hs h).1
termination_by (s.unreached, s.slack m.length, s.worklist.length)
decreasing_by
  rcases (visit_eq_ok (s := s.without index) hs h).2 with ⟨hframes, hrest⟩ | hlt | ⟨heq, hlt⟩
  · have hunreached : s'.unreached = s.unreached := by unfold unreached; rw [hframes]; rfl
    have hslack : s'.slack m.length = s.slack m.length := by unfold slack; rw [hframes]; rfl
    rw [hunreached, hslack, hrest]
    refine Prod.Lex.right _ (Prod.Lex.right _ ?_)
    show (s.worklist.erase index).length < s.worklist.length
    rw [_hlist, List.erase_cons_head]
    exact Nat.lt_succ_self _
  · exact Prod.Lex.left _ _ hlt
  · rw [heq]
    exact Prod.Lex.right _ (Prod.Lex.left _ _ hlt)

/-- The graph of a method that was explored, with its edges in order and each of them once. -/
def graph (m : MethodBody) (s : Exploration) : FrameGraph where
  body := m
  frames := s.frames
  successorTable := s.edges.successors.map .ofList
  predecessorTable := s.edges.predecessors.map .ofList

end Exploration

/-- The frame graph of a method, unless the method is ill formed. -/
def FrameGraph.build (m : MethodBody) : Except FrameError FrameGraph :=
  match Exploration.explore m (.start m) (Exploration.bounded_start m) with
  | .error e => .error e
  | .ok s => .ok (s.graph m)

end CallFold
