import CallFold.Proofs.ConstantValues
import CallFold.Proofs.Escapes
import CallFold.Proofs.Producers
import CallFold.Proofs.RoundTrip
import Mathlib

/-!
# No look-up fails

The tracers look up instructions, frames and slots, and where one is missing they answer as if a
value were unknown. On a graph that was built none is missing. A producer in a frame is an
instruction that can be reached (`FrameGraph.WellSourced`), its frame has what the instruction
takes, and this occurs in a frame again.

To say so, the tracers are written once more, with the first look-up that finds nothing as an error
(`Lookup`). They return what the tracers return (`Scope.lookups_succeed`).
-/

namespace CallFold

/-!
## Tracers that admit a failed look-up

Each of them does what the function does after which it is named, and stops at the first look-up
that finds nothing.
-/

/-- What can be looked up while tracing. -/
inductive Lookup where
  | instruction (index : Nat)
  | frame (index : Nat)
  | place (index : Nat) (place : Place)

/-- What a look-up finds, or else the look-up. -/
def Lookup.find {α : Type} (l : Lookup) : Option α → Except Lookup α
  | some a => .ok a
  | none => .error l

/-- The producers of a place on entry to the instruction at an index. -/
def Frame.lookup (f : Frame) (index : Nat) (place : Place) : Except Lookup IndexSet :=
  (Lookup.place index place).find (f.view.get? place)

/-- Like `search`, but asking for the next indices may fail. -/
def strictSearch {ε : Type} (next : Nat → Except ε (List Nat)) (marked : BitSet)
    (pending : List Nat) : Except ε BitSet :=
  match pending with
  | [] => .ok marked
  | i :: rest =>
    match _h : marked.insert i with
    | (true, marked') => do strictSearch next marked' ((← next i) ++ rest)
    | (false, _) => strictSearch next marked rest
termination_by (marked.absent, pending.length)
decreasing_by
  · exact Prod.Lex.left _ _ (BitSet.absent_insert_lt _h)
  · exact Prod.Lex.right _ (by simp)

namespace FrameGraph

/-- An instruction and the frame on entry to it. -/
def lookup (g : FrameGraph) (index : Nat) : Except Lookup (Instruction × Frame) := do
  let instruction ← (Lookup.instruction index).find (g.instruction? index)
  let frame ← (Lookup.frame index).find (g.frame? index)
  return (instruction, frame)

def strictLiteral (g : FrameGraph) (value : IndexSet) : Except Lookup (Option Int32) :=
  match value.single? with
  | none => .ok none
  | some producer => do
    match ← (Lookup.instruction producer).find (g.instruction? producer) with
    | .intConst v | .bytePush v | .shortPush v | .ldc (.int v) => return some v
    | _ => return none

def strictIsNewArrayOnly (g : FrameGraph) (value : IndexSet) : Except Lookup Bool :=
  match value.single? with
  | none => .ok false
  | some producer => do
    return (← (Lookup.instruction producer).find (g.instruction? producer)).isNewArray

def strictTraceOrigin (g : FrameGraph) :
    Nat → List Nat → IndexSet → Except Lookup (Option ArrayOrigin)
  | 0, _, _ => .ok none
  | hops + 1, stores, value =>
    match value.single? with
    | none => .ok none
    | some producer => do
      let (instruction, frame) ← g.lookup producer
      match instruction with
      | .newArray _ =>
        let size ← g.strictLiteral (← frame.lookup producer (.stack 0))
        return (size.bind naturalOf?).map fun length => { allocation := producer, length, stores }
      | .load slot => g.strictTraceOrigin hops stores (← frame.lookup producer (.slot slot))
      | .store _ =>
        let stored ← frame.lookup producer (.stack 0)
        if ← g.strictIsNewArrayOnly stored then
          g.strictTraceOrigin hops (stores ++ [producer]) stored
        else return none
      | .dup => g.strictTraceOrigin hops stores (← frame.lookup producer (.stack 0))
      | _ => return none

def strictOrigin (g : FrameGraph) (maxDepth : Nat) (value : IndexSet) :
    Except Lookup (Option ArrayOrigin) :=
  g.strictTraceOrigin (maxDepth + 1) [] value

def strictTraceAllocation (g : FrameGraph) : Nat → IndexSet → Except Lookup (Option Nat)
  | 0, _ => .ok none
  | hops + 1, value =>
    match value.single? with
    | none => .ok none
    | some producer => do
      let (instruction, frame) ← g.lookup producer
      match instruction with
      | .newArray _ => return some producer
      | .load slot => g.strictTraceAllocation hops (← frame.lookup producer (.slot slot))
      | .store _ | .dup | .checkCast _ =>
        g.strictTraceAllocation hops (← frame.lookup producer (.stack 0))
      | _ => return none

def strictMustOriginate (g : FrameGraph) (maxDepth : Nat) (value : IndexSet) :
    Except Lookup (Option Nat) :=
  g.strictTraceAllocation (maxDepth + 1) value

def strictCopySources (g : FrameGraph) (index : Nat) : Except Lookup (List Nat) := do
  let (instruction, frame) ← g.lookup index
  return (← instruction.copiedPlaces.mapM (frame.lookup index)).flatMap IndexSet.toList

def strictMayAlias (g : FrameGraph) (value : IndexSet) (allocation : Nat) :
    Except Lookup Bool := do
  return (← strictSearch g.strictCopySources (.empty g.length) value.toList).contains allocation

end FrameGraph

namespace Scope

def strictTrace (s : Scope) (k : ConstantKind) :
    Nat → IndexSet → Except Lookup (Option k.Value)
  | 0, _ => .ok none
  | hops + 1, value =>
    match value.single? with
    | none => .ok none
    | some producer => do
      let (instruction, frame) ← s.graph.lookup producer
      match instruction with
      | .load slot => s.strictTrace k hops (← frame.lookup producer (.slot slot))
      | .store _ => s.strictTrace k hops (← frame.lookup producer (.stack 0))
      | .invoke callee =>
        match s.cache.get? producer with
        | some (.resolved result) => return ConstantKind.ofResolved? result k
        | some (.failed _) => return none
        | none => return ConstantKind.leaf? s.metadata (.invoke callee) k
      | other => return ConstantKind.leaf? s.metadata other k

def strictInfer (s : Scope) (k : ConstantKind) (value : IndexSet) :
    Except Lookup (Option k.Value) :=
  s.strictTrace k (s.maxTraceDepth + 1) value

/-- Whether a place may hold a reference that an allocation made. -/
def strictAliases (s : Scope) (allocation index : Nat) (frame : Frame) (place : Place) :
    Except Lookup Bool := do
  s.graph.strictMayAlias (← frame.lookup index place) allocation

/-- Like `escapesAt`; every argument of a call is looked up, the deepest first. -/
def strictEscapesAt (s : Scope) (origin : ArrayOrigin) (index : Nat) : Except Lookup Bool := do
  let (instruction, frame) ← s.graph.lookup index
  match instruction with
  | .putField _ | .putStatic _ | .arrayStore =>
    s.strictAliases origin.allocation index frame (.stack 0)
  | .store _ =>
    if origin.stores.contains index then return false
    else s.strictAliases origin.allocation index frame (.stack 0)
  | .invoke callee =>
    if s.safeCalls.contains callee.signature then return false
    else (List.range callee.argumentSlots).reverse.anyM fun below =>
      s.strictAliases origin.allocation index frame (.stack below)
  | _ => return false

def strictEscapes (s : Scope) (origin : ArrayOrigin) (site : Nat) : Except Lookup Bool :=
  (reachable s.graph.length s.graph.predecessors [site]).toList.anyM fun index =>
    if index = site then .ok false else s.strictEscapesAt origin index

def strictStoreEffect (s : Scope) (k : ConstantKind) (origin : ArrayOrigin) (index : Nat)
    (frame : Frame) : Except Lookup (WindowEffect k.Value) := do
  let reference ← frame.lookup index (.stack 2)
  let position ← frame.lookup index (.stack 1)
  let stored ← frame.lookup index (.stack 0)
  match ← s.graph.strictMustOriginate s.maxTraceDepth reference with
  | some allocation =>
    if allocation = origin.allocation then
      let number ← s.graph.strictLiteral position
      let constant ← s.strictInfer k stored
      match number.bind naturalOf?, constant with
      | some slot, some element =>
        return if slot < origin.length then .write slot element else .spoil
      | _, _ => return .spoil
    else return .none
  | none =>
    return if ← s.graph.strictMayAlias reference origin.allocation then .spoil else .none

def strictWindowEffect (s : Scope) (k : ConstantKind) (origin : ArrayOrigin) (index : Nat) :
    Except Lookup (WindowEffect k.Value) :=
  if (s.graph.successors index).size ≠ 1 then .ok .spoil
  else do
    match ← (Lookup.instruction index).find (s.graph.instruction? index) with
    | .arrayStore =>
      s.strictStoreEffect k origin index (← (Lookup.frame index).find (s.graph.frame? index))
    | _ => return .none

end Scope

/-! ## Single look-ups -/

theorem ok_bind {ε α β : Type} (a : α) (next : α → Except ε β) :
    (Except.ok a >>= next) = next a :=
  rfl

@[simp]
theorem Lookup.find_some {α : Type} (l : Lookup) (a : α) : l.find (some a) = .ok a := rfl

theorem Frame.lookup_eq_ok {f : Frame} {place : Place} {value : IndexSet}
    (h : f.view.get? place = some value) (index : Nat) : f.lookup index place = .ok value := by
  rw [Frame.lookup, h, Lookup.find_some]

namespace FrameGraph

variable {g : FrameGraph} {p : Nat} {f : Frame} {value : IndexSet} {i : Instruction}

theorem lookup_eq_ok (h : g.node? p = some (i, f)) : g.lookup p = .ok (i, f) := by
  obtain ⟨hi, hf⟩ := node?_eq_some_iff.mp h
  simp only [lookup, hi, hf, Lookup.find_some, ok_bind]
  rfl

theorem Solved.exists_node (hg : g.Solved) (h : g.Occurs value) (hp : p ∈ value) :
    ∃ i f, g.node? p = some (i, f) := by
  obtain ⟨j, fj, place, hfj, hvalue⟩ := h
  obtain ⟨i, f, hnode, -⟩ := hg.exists_node_of_mem hfj hvalue hp
  exact ⟨i, f, hnode⟩

theorem Solved.exists_node_of_single (hg : g.Solved) (h : g.Occurs value)
    (hsingle : value.single? = some p) : ∃ i f, g.node? p = some (i, f) := by
  rw [IndexSet.single?_eq_some_iff] at hsingle
  exact hg.exists_node h (hsingle ▸ IndexSet.mem_singleton.mpr rfl)

/-- A load finds its slot, and what is in it occurs in a frame again. -/
theorem Solved.exists_loaded (hg : g.Solved) {slot : Nat}
    (hnode : g.node? p = some (.load slot, f)) :
    ∃ held, f.slot? slot = some held ∧ f.lookup p (.slot slot) = .ok held ∧ g.Occurs held := by
  obtain ⟨hi, hf⟩ := node?_eq_some_iff.mp hnode
  have hlt : slot < f.locals.length := (hg.accepts hf hi).slot slot rfl
  have hget : f.view.get? (.slot slot) = some f.locals[slot] := List.getElem?_eq_getElem hlt
  exact ⟨_, hget, Frame.lookup_eq_ok hget p, p, f, .slot slot, hf, hget⟩

/-- An instruction finds its operands, and what they hold occurs in a frame again. -/
theorem Solved.exists_operand (hg : g.Solved) (hnode : g.node? p = some (i, f)) {below : Nat}
    (h : below < i.pops) :
    ∃ held, f.peek? below = some held ∧ f.lookup p (.stack below) = .ok held ∧
      g.Occurs held := by
  obtain ⟨hi, hf⟩ := node?_eq_some_iff.mp hnode
  have hlt : below < f.stack.length := Nat.lt_of_lt_of_le h (hg.accepts hf hi).depth
  have hget : f.view.get? (.stack below) = some f.stack[below] := List.getElem?_eq_getElem hlt
  exact ⟨_, hget, Frame.lookup_eq_ok hget p, p, f, .stack below, hf, hget⟩

/-! ## Chains of look-ups -/

theorem Solved.strictLiteral_eq_ok (hg : g.Solved) (h : g.Occurs value) :
    g.strictLiteral value = .ok (g.literalInt? value) := by
  unfold strictLiteral literalInt?
  cases hsingle : value.single? with
  | none => rfl
  | some p =>
    obtain ⟨i, f, hnode⟩ := hg.exists_node_of_single h hsingle
    simp only [(node?_eq_some_iff.mp hnode).1, Lookup.find_some, ok_bind, Option.bind_eq_bind,
      Option.bind_some]
    cases i with
    | ldc literal => cases literal <;> rfl
    | _ => rfl

theorem Solved.strictIsNewArrayOnly_eq_ok (hg : g.Solved) (h : g.Occurs value) :
    g.strictIsNewArrayOnly value = .ok (g.isNewArrayOnly value) := by
  unfold strictIsNewArrayOnly isNewArrayOnly
  cases hsingle : value.single? with
  | none => rfl
  | some p =>
    obtain ⟨i, f, hnode⟩ := hg.exists_node_of_single h hsingle
    simp only [(node?_eq_some_iff.mp hnode).1, Lookup.find_some, ok_bind, Option.bind_some]
    rfl

theorem Solved.strictTraceOrigin_eq_ok (hg : g.Solved) (h : g.Occurs value) (hops : Nat)
    (stores : List Nat) :
    g.strictTraceOrigin hops stores value = .ok (g.traceOrigin hops stores value) := by
  induction hops generalizing stores value with
  | zero => rfl
  | succ hops ih =>
    rw [strictTraceOrigin, traceOrigin]
    cases hsingle : value.single? with
    | none => rfl
    | some p =>
      obtain ⟨i, f, hnode⟩ := hg.exists_node_of_single h hsingle
      simp only [lookup_eq_ok hnode, hnode, ok_bind]
      cases i with
      | newArray element =>
        obtain ⟨size, hsize, hlookup, hoccurs⟩ := hg.exists_operand hnode Nat.zero_lt_one
        simp only [hlookup, ok_bind, hg.strictLiteral_eq_ok hoccurs, literalLength?, Frame.top?,
          hsize]
        rfl
      | load slot =>
        obtain ⟨held, hheld, hlookup, hoccurs⟩ := hg.exists_loaded hnode
        simp only [hlookup, ok_bind, hheld]
        exact ih hoccurs stores
      | store slot =>
        obtain ⟨stored, hstored, hlookup, hoccurs⟩ := hg.exists_operand hnode Nat.zero_lt_one
        simp only [hlookup, ok_bind, hg.strictIsNewArrayOnly_eq_ok hoccurs, Frame.top?, hstored]
        split
        · exact ih hoccurs _
        · rfl
      | dup =>
        obtain ⟨copied, hcopied, hlookup, hoccurs⟩ := hg.exists_operand hnode Nat.zero_lt_one
        simp only [hlookup, ok_bind, Frame.top?, hcopied]
        exact ih hoccurs stores
      | _ => rfl

theorem Solved.strictTraceAllocation_eq_ok (hg : g.Solved) (h : g.Occurs value) (hops : Nat) :
    g.strictTraceAllocation hops value = .ok (g.traceAllocation hops value) := by
  induction hops generalizing value with
  | zero => rfl
  | succ hops ih =>
    rw [strictTraceAllocation, traceAllocation]
    cases hsingle : value.single? with
    | none => rfl
    | some p =>
      obtain ⟨i, f, hnode⟩ := hg.exists_node_of_single h hsingle
      simp only [lookup_eq_ok hnode, hnode, ok_bind]
      cases i with
      | load slot =>
        obtain ⟨held, hheld, hlookup, hoccurs⟩ := hg.exists_loaded hnode
        simp only [hlookup, ok_bind, copiedSlot?, hheld]
        exact ih hoccurs
      | store _ | dup | checkCast _ =>
        obtain ⟨held, hheld, hlookup, hoccurs⟩ := hg.exists_operand hnode Nat.zero_lt_one
        simp only [hlookup, ok_bind, copiedSlot?, Frame.top?, hheld]
        exact ih hoccurs
      | _ => rfl

end FrameGraph

theorem Scope.strictTrace_eq_ok {s : Scope} (hg : s.graph.Solved) {value : IndexSet}
    (h : s.graph.Occurs value) (k : ConstantKind) (hops : Nat) :
    s.strictTrace k hops value = .ok (s.trace k hops value) := by
  induction hops generalizing value with
  | zero => rfl
  | succ hops ih =>
    rw [strictTrace, trace]
    cases hsingle : value.single? with
    | none => rfl
    | some p =>
      obtain ⟨i, f, hnode⟩ := hg.exists_node_of_single h hsingle
      simp only [FrameGraph.lookup_eq_ok hnode, hnode, ok_bind]
      cases i with
      | load slot =>
        obtain ⟨held, hheld, hlookup, hoccurs⟩ := hg.exists_loaded hnode
        simp only [hlookup, ok_bind, hheld]
        exact ih hoccurs
      | store slot =>
        obtain ⟨stored, hstored, hlookup, hoccurs⟩ := hg.exists_operand hnode Nat.zero_lt_one
        simp only [hlookup, ok_bind, Frame.top?, hstored]
        exact ih hoccurs
      | invoke callee =>
        cases hcache : s.cache.get? p with
        | none => rfl
        | some outcome => cases outcome <;> rfl
      | _ => rfl

/-! ## Searches -/

section Searches

variable {next : Nat → List Nat} {marked : BitSet} {pending : List Nat} {P : Nat → Prop}

/-- A search that never comes to where asking fails is the search without failures. -/
theorem strictSearch_eq_ok {ε : Type} {ask : Nat → Except ε (List Nat)}
    (hask : ∀ i, P i → ask i = .ok (next i)) (hnext : ∀ i, P i → ∀ j ∈ next i, P j)
    (hpending : ∀ i ∈ pending, P i) :
    strictSearch ask marked pending = .ok (search next marked pending) := by
  fun_induction search next marked pending with
  | case1 marked => rw [strictSearch]
  | case2 marked i rest marked' hinsert ih =>
    have hi : P i := hpending i List.mem_cons_self
    have hpending' : ∀ j ∈ next i ++ rest, P j := by
      intro j hj
      rcases List.mem_append.mp hj with hj | hj
      · exact hnext i hi j hj
      · exact hpending j (List.mem_cons_of_mem i hj)
    rw [strictSearch]
    split
    · next hinsert' =>
      obtain ⟨-, rfl⟩ := Prod.mk.inj (hinsert.symm.trans hinsert')
      rw [hask i hi, ok_bind]
      exact ih hpending'
    · next hinsert' => simp [hinsert] at hinsert'
  | case3 marked i rest unchanged hinsert ih =>
    rw [strictSearch]
    split
    · next hinsert' => simp [hinsert] at hinsert'
    · exact ih fun j hj => hpending j (List.mem_cons_of_mem i hj)

/-- Everything that a search lists is pending or follows what is. -/
theorem forall_of_search (hnext : ∀ i, P i → ∀ j ∈ next i, P j) (hpending : ∀ i ∈ pending, P i)
    (hmarked : ∀ i, marked.holds i = true → P i) {j : Nat}
    (h : (search next marked pending).holds j = true) : P j := by
  fun_induction search next marked pending with
  | case1 marked => exact hmarked j h
  | case2 marked i rest marked' hinsert ih =>
    have hi : P i := hpending i List.mem_cons_self
    refine ih ?_ ?_ h
    · intro j hj
      rcases List.mem_append.mp hj with hj | hj
      · exact hnext i hi j hj
      · exact hpending j (List.mem_cons_of_mem i hj)
    · intro j hj
      have hfst := BitSet.insert_fst marked i
      rw [hinsert, eq_comm, Bool.and_eq_true, decide_eq_true_iff] at hfst
      rw [show marked' = (marked.insert i).2 by rw [hinsert],
        BitSet.holds_insert marked hfst.1] at hj
      split at hj
      · next heq => exact heq ▸ hi
      · exact hmarked j hj
  | case3 marked i rest _ _ ih =>
    exact ih (fun j hj => hpending j (List.mem_cons_of_mem i hj)) hmarked h

end Searches

namespace FrameGraph

variable {g : FrameGraph} {p : Nat} {f : Frame} {value : IndexSet} {i : Instruction}

theorem Solved.strictCopySources_eq_ok (hg : g.Solved) (hnode : g.node? p = some (i, f)) :
    g.strictCopySources p = .ok (g.copySources p) := by
  unfold strictCopySources copySources
  simp only [lookup_eq_ok hnode, hnode, ok_bind]
  cases i with
  | load slot =>
    obtain ⟨held, hheld, hlookup, -⟩ := hg.exists_loaded hnode
    simp only [Instruction.copiedPlaces, List.mapM_cons, List.mapM_nil, hlookup, ok_bind,
      copiedSlots, copiedSlot?, hheld]
    rfl
  | store _ | dup | checkCast _ =>
    obtain ⟨held, hheld, hlookup, -⟩ := hg.exists_operand hnode Nat.zero_lt_one
    simp only [Instruction.copiedPlaces, List.mapM_cons, List.mapM_nil, hlookup, ok_bind,
      copiedSlots, copiedSlot?, Frame.top?, hheld]
    rfl
  | dupX1 | swap =>
    obtain ⟨first, hfirst, hlookup, -⟩ := hg.exists_operand hnode Nat.zero_lt_two
    obtain ⟨second, hsecond, hlookup', -⟩ := hg.exists_operand hnode Nat.one_lt_two
    simp only [Instruction.copiedPlaces, List.mapM_cons, List.mapM_nil, hlookup, hlookup', ok_bind,
      copiedSlots, hfirst, hsecond]
    rfl
  | _ => rfl

/-- What may have been copied occurs in a frame, so its producers can be reached. -/
theorem Solved.exists_node_of_copySource (hg : g.Solved) {q : Nat} (h : q ∈ g.copySources p) :
    ∃ i f, g.node? q = some (i, f) := by
  obtain ⟨i, f, place, set, hnode, -, hget, hq⟩ := mem_copySources_iff.mp h
  exact hg.exists_node ⟨p, f, place, (node?_eq_some_iff.mp hnode).2, hget⟩ hq

theorem Solved.strictMayAlias_eq_ok (hg : g.Solved) (h : g.Occurs value) (a : Nat) :
    g.strictMayAlias value a = .ok (g.mayAlias value a) := by
  have hsearch : strictSearch g.strictCopySources (.empty g.length) value.toList =
      .ok (search g.copySources (.empty g.length) value.toList) := by
    refine strictSearch_eq_ok (P := fun p => ∃ i f, g.node? p = some (i, f)) ?_ ?_ ?_
    · rintro p ⟨i, f, hnode⟩
      exact hg.strictCopySources_eq_ok hnode
    · intro p _ q hq
      exact hg.exists_node_of_copySource hq
    · intro p hp
      exact hg.exists_node h hp
  rw [strictMayAlias, hsearch]
  rfl

end FrameGraph

/-! ## Escapes and elements -/

theorem anyM_eq_ok {ε α : Type} {l : List α} {ask : α → Except ε Bool} {answer : α → Bool}
    (h : ∀ x ∈ l, ask x = .ok (answer x)) : l.anyM ask = .ok (l.any answer) := by
  induction l with
  | nil => rfl
  | cons x rest ih =>
    rw [List.anyM_cons, h x List.mem_cons_self, ok_bind,
      ih fun y hy => h y (List.mem_cons_of_mem x hy), List.any_cons]
    cases answer x <;> rfl

/-- The arguments are what is found by looking for them one by one. -/
theorem Frame.any_arguments (f : Frame) (count : Nat) (q : IndexSet → Bool) :
    (f.arguments count).any q =
      (List.range count).reverse.any fun below => (f.peek? below).any q := by
  rw [arguments, List.any_reverse, List.any_reverse, Bool.eq_iff_iff, List.any_eq_true,
    List.any_eq_true]
  simp only [List.mem_range, Option.any_eq_true, peek?]
  constructor
  · rintro ⟨value, hmem, hq⟩
    obtain ⟨below, hbelow⟩ := List.mem_iff_getElem?.mp hmem
    rw [List.getElem?_take] at hbelow
    split at hbelow
    · next hlt => exact ⟨below, hlt, value, hbelow, hq⟩
    · simp at hbelow
  · rintro ⟨below, hlt, value, hget, hq⟩
    refine ⟨value, List.mem_iff_getElem?.mpr ⟨below, ?_⟩, hq⟩
    rw [List.getElem?_take, if_pos hlt]
    exact hget

namespace Scope

variable {s : Scope} {p : Nat} {f : Frame} {i : Instruction}

theorem strictAliases_eq_ok (hg : s.graph.Solved) (hnode : s.graph.node? p = some (i, f))
    {below : Nat} (h : below < i.pops) (a : Nat) :
    s.strictAliases a p f (.stack below) = .ok (s.aliases a (f.peek? below)) := by
  obtain ⟨held, hheld, hlookup, hoccurs⟩ := hg.exists_operand hnode h
  rw [strictAliases, hlookup, ok_bind, hg.strictMayAlias_eq_ok hoccurs, hheld]
  rfl

theorem strictEscapesAt_eq_ok (hg : s.graph.Solved) (hnode : s.graph.node? p = some (i, f))
    (o : ArrayOrigin) : s.strictEscapesAt o p = .ok (s.escapesAt o p) := by
  unfold strictEscapesAt escapesAt
  simp only [FrameGraph.lookup_eq_ok hnode, hnode, ok_bind]
  cases i with
  | putField _ => exact strictAliases_eq_ok hg hnode Nat.zero_lt_two o.allocation
  | putStatic _ => exact strictAliases_eq_ok hg hnode Nat.zero_lt_one o.allocation
  | arrayStore => exact strictAliases_eq_ok hg hnode (Nat.zero_lt_succ 2) o.allocation
  | store slot =>
    have htop := strictAliases_eq_ok hg hnode Nat.zero_lt_one o.allocation
    by_cases hstores : o.stores.contains p = true
    · simp only [hstores]
      rfl
    · simp only [hstores, htop]
      rfl
  | invoke callee =>
    obtain ⟨hi, hf⟩ := FrameGraph.node?_eq_some_iff.mp hnode
    have hdepth : callee.argumentSlots ≤ f.depth := (hg.accepts hf hi).depth
    have harguments : ∀ below ∈ (List.range callee.argumentSlots).reverse,
        s.strictAliases o.allocation p f (.stack below) =
          .ok (s.aliases o.allocation (f.peek? below)) := by
      intro below hbelow
      rw [List.mem_reverse, List.mem_range] at hbelow
      exact strictAliases_eq_ok hg hnode hbelow o.allocation
    simp only [anyM_eq_ok harguments, Frame.any_arguments, hdepth]
    by_cases hsafe : s.safeCalls.contains callee.signature = true
    · simp only [hsafe]
      rfl
    · simp only [hsafe]
      rfl
  | _ => rfl

/-- Control comes to a call only from instructions that can be reached. -/
theorem strictEscapes_eq_ok (hg : s.graph.Solved) (o : ArrayOrigin) (site : Nat) :
    s.strictEscapes o site = .ok (s.escapes o site) := by
  refine anyM_eq_ok fun index hindex => ?_
  have hvisited : index = site ∨ ∃ f, s.graph.frame? index = some f := by
    refine forall_of_search (P := fun index => index = site ∨ ∃ f, s.graph.frame? index = some f)
      ?_ ?_ ?_ (BitSet.mem_toList_iff.mp hindex)
    · intro i _ j hj
      exact Or.inr (hg.frame?_of_mem_successors ((hg.predecessors j i).mp hj))
    · intro i hi
      exact Or.inl (List.mem_singleton.mp hi)
    · intro i hi
      simp [BitSet.holds_empty] at hi
  by_cases hsite : index = site
  · simp [hsite]
  · obtain ⟨f, hf⟩ := hvisited.resolve_left hsite
    obtain ⟨i, hi, -⟩ := hg.step index f hf
    rw [if_neg hsite, strictEscapesAt_eq_ok hg (FrameGraph.node?_eq_some_iff.mpr ⟨hi, hf⟩)]
    simp [hsite]

theorem strictStoreEffect_eq_ok (hg : s.graph.Solved)
    (hnode : s.graph.node? p = some (.arrayStore, f)) (k : ConstantKind) (o : ArrayOrigin) :
    s.strictStoreEffect k o p f = .ok (s.storeEffect k o f) := by
  obtain ⟨reference, hreference, hreferenceAt, hreferenceOccurs⟩ :=
    hg.exists_operand hnode (show 2 < Instruction.arrayStore.pops by decide)
  obtain ⟨position, hposition, hpositionAt, hpositionOccurs⟩ :=
    hg.exists_operand hnode (show 1 < Instruction.arrayStore.pops by decide)
  obtain ⟨stored, hstored, hstoredAt, hstoredOccurs⟩ :=
    hg.exists_operand hnode (show 0 < Instruction.arrayStore.pops by decide)
  have hmust : s.graph.strictMustOriginate s.maxTraceDepth reference =
      .ok (s.graph.mustOriginate? s.maxTraceDepth reference) :=
    hg.strictTraceAllocation_eq_ok hreferenceOccurs _
  have hinfer : s.strictInfer k stored = .ok (s.infer k stored) :=
    strictTrace_eq_ok hg hstoredOccurs k _
  unfold strictStoreEffect storeEffect
  simp only [hreferenceAt, hpositionAt, hstoredAt, hreference, hposition, hstored, ok_bind, hmust]
  cases s.graph.mustOriginate? s.maxTraceDepth reference with
  | none =>
    simp only [hg.strictMayAlias_eq_ok hreferenceOccurs, ok_bind]
    rfl
  | some allocation =>
    simp only [hg.strictLiteral_eq_ok hpositionOccurs, hinfer, ok_bind]
    split
    · cases (s.graph.literalInt? position).bind naturalOf? with
      | none => rfl
      | some slot => cases s.infer k stored <;> rfl
    · rfl

theorem strictWindowEffect_eq_ok (hg : s.graph.Solved) (k : ConstantKind) (o : ArrayOrigin)
    (index : Nat) : s.strictWindowEffect k o index = .ok (s.windowEffect k o index) := by
  unfold strictWindowEffect windowEffect
  split
  · rfl
  · next hsize =>
    -- what has a successor can be reached
    obtain ⟨j, hj⟩ := List.length_eq_one_iff.mp (not_not.mp hsize)
    obtain ⟨f, hf⟩ := hg.frame?_of_mem_successors
      (show j ∈ s.graph.successors index by simp [IndexSet.mem_def, hj])
    obtain ⟨i, hi, -⟩ := hg.step index f hf
    simp only [hi, hf, Lookup.find_some, ok_bind]
    cases i with
    | arrayStore =>
      exact strictStoreEffect_eq_ok hg (FrameGraph.node?_eq_some_iff.mpr ⟨hi, hf⟩) k o
    | _ => rfl

/-- No look-up fails: what admits that one may fail answers as if none could. -/
structure LookupsSucceed (s : Scope) : Prop where
  infer : ∀ k value, s.graph.Occurs value → s.strictInfer k value = .ok (s.infer k value)
  origin : ∀ depth value, s.graph.Occurs value →
    s.graph.strictOrigin depth value = .ok (s.graph.origin? depth value)
  mustOriginate : ∀ depth value, s.graph.Occurs value →
    s.graph.strictMustOriginate depth value = .ok (s.graph.mustOriginate? depth value)
  mayAlias : ∀ allocation value, s.graph.Occurs value →
    s.graph.strictMayAlias value allocation = .ok (s.graph.mayAlias value allocation)
  escapes : ∀ origin site, s.strictEscapes origin site = .ok (s.escapes origin site)
  window : ∀ k origin index,
    s.strictWindowEffect k origin index = .ok (s.windowEffect k origin index)

/--
In a graph that was built, every producer can be reached and fills places of the kind where it is
found, and no look-up of the analysis fails.
-/
theorem lookups_succeed {m : MethodBody} (h : FrameGraph.build m = .ok s.graph) :
    s.graph.WellSourced ∧ s.LookupsSucceed := by
  have hg := FrameGraph.solved_of_build h
  exact ⟨hg.wellSourced, {
    infer k value hvalue := strictTrace_eq_ok hg hvalue k _
    origin depth value hvalue := hg.strictTraceOrigin_eq_ok hvalue _ []
    mustOriginate depth value hvalue := hg.strictTraceAllocation_eq_ok hvalue _
    mayAlias allocation value hvalue := hg.strictMayAlias_eq_ok hvalue allocation
    escapes := strictEscapes_eq_ok hg
    window := strictWindowEffect_eq_ok hg }⟩

/-- A call that takes an array of texts and is not known to be safe. -/
def keepAll : MethodRef where
  kind := .static
  signature := ⟨"app/Target", "keep", "([Ljava/lang/String;)V"⟩
  descriptor := ⟨[.array (.object "java/lang/String")], none⟩
  parsed := MethodDescriptor.parse_eq_ok_iff.mpr ⟨by decide, rfl⟩

/-- An array gets one of two texts as its element and is passed to a call. -/
def passEither : MethodBody where
  name := "passEither"
  descriptor := ⟨[.primitive .boolean], none⟩
  flags := .static
  maxLocals := 3
  code := #[.intConst 1, .newArray (.object "java/lang/String"), .store 1, .load 0, .branch .eq 8,
    .ldc (.text "x"), .store 2, .goto 10, .ldc (.text "y"), .store 2, .load 1, .intConst 0, .load 2,
    .arrayStore, .load 1, .invoke keepAll, .ret false]

/-- The store is traced to the allocation, and the call is seen to let the array escape. -/
theorem lookups_succeed_passEither : ∃ g, FrameGraph.build passEither = .ok g ∧
    g.Occurs (.singleton 10) ∧ g.Occurs (.ofList [6, 9]) ∧
    g.strictMustOriginate 8 (.singleton 10) = .ok (some 1) ∧
    (Machine.quietScope g .empty).strictInfer .text (.ofList [6, 9]) = .ok none ∧
    (Machine.quietScope g .empty).strictEscapes ⟨1, 1, [2]⟩ 15 = .ok false ∧
    (Machine.quietScope g .empty).strictEscapes ⟨1, 1, [2]⟩ 16 = .ok true := by
  obtain ⟨g, hbuild, hread⟩ := FrameGraph.exists_of_build_map (m := passEither)
    (show (FrameGraph.build passEither).toOption.map (fun g =>
      ((g.frame? 13).map (·.view.get? (.stack 2)), (g.frame? 12).map (·.view.get? (.slot 2)),
        g.mustOriginate? 8 (.singleton 10),
        (Machine.quietScope g .empty).infer .text (.ofList [6, 9]),
        (Machine.quietScope g .empty).escapes ⟨1, 1, [2]⟩ 15,
        (Machine.quietScope g .empty).escapes ⟨1, 1, [2]⟩ 16)) =
      some (some (some (.singleton 10)), some (some (.ofList [6, 9])), some 1, none, false, true)
      by cbv)
  simp only [Prod.mk.injEq, Option.map_eq_some_iff] at hread
  obtain ⟨⟨f, hf, hreference⟩, ⟨f', hf', hslot⟩, hmust, hinfer, hbefore, hafter⟩ := hread
  obtain ⟨-, hlookups⟩ := lookups_succeed (s := Machine.quietScope g .empty) hbuild
  have hoccurs : g.Occurs (.singleton 10) := ⟨13, f, .stack 2, hf, hreference⟩
  have hoccurs' : g.Occurs (.ofList [6, 9]) := ⟨12, f', .slot 2, hf', hslot⟩
  refine ⟨g, hbuild, hoccurs, hoccurs', ?_, ?_, ?_, ?_⟩
  · exact hmust ▸ hlookups.mustOriginate 8 _ hoccurs
  · exact hinfer ▸ hlookups.infer .text _ hoccurs'
  · exact hbefore ▸ hlookups.escapes ⟨1, 1, [2]⟩ 15
  · exact hafter ▸ hlookups.escapes ⟨1, 1, [2]⟩ 16

end Scope

end CallFold
