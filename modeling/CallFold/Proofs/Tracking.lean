import CallFold.Proofs.ArrayAnalysis
import CallFold.Proofs.Machine

/-!
# Following an array

An array is in view as long as nothing in memory refers to it (`Tracks`): then exactly those places
hold a reference to it whose content comes from its allocation. An instruction keeps it in view
unless it leaks it (`Tracks.step`), and where the analysis sees no escape, nothing leaks
(`Tracks.not_leaks`). While it is in view, only an array store through one of those places can
change it (`Tracks.heap_of_source_ne`, `Step.heap_of_ne_arrayStore`).
-/

namespace CallFold.Machine

/-! ## Memory -/

namespace Memory

variable {mem : Memory} {x : Nat}

theorem Hidden.write (h : mem.Hidden x) {address : Nat} {cell : Cell} (hcell : ¬ cell.Refers x) :
    (mem.write address cell).Hidden x where
  heap := by
    intro a other hother
    simp only [Memory.write] at hother
    split at hother
    · rw [← Option.some.inj hother]
      exact hcell
    · exact h.heap a other hother
  statics := h.statics

theorem Hidden.writeStatic (h : mem.Hidden x) {field : FieldRef} {v : Value} (hv : v ≠ .ref x) :
    (mem.writeStatic field v).Hidden x where
  heap := h.heap
  statics := by
    intro f
    simp only [Memory.writeStatic]
    split
    · exact hv
    · exact h.statics f

theorem Hidden.ne_of_reads (h : mem.Hidden x) {field : FieldRef} {v : Value}
    (hv : mem.Reads field v) : v ≠ .ref x := by
  cases hv with
  | type _ => simp
  | written _ => exact h.statics field

theorem heap_write_of_ne {address : Nat} {cell : Cell} (h : x ≠ address) :
    (mem.write address cell).heap x = mem.heap x :=
  if_neg h

theorem heap_write_self {address : Nat} {cell : Cell} :
    (mem.write address cell).heap address = some cell :=
  if_pos rfl

end Memory

theorem Value.initial_ne_ref (d : Descriptor) (x : Nat) : Value.initial d ≠ .ref x := by
  unfold initial
  split <;> simp

theorem not_refers_initial (element : Descriptor) (length x : Nat) :
    ¬ (Cell.array (List.replicate length (.initial element))).Refers x := by
  intro h
  exact Value.initial_ne_ref element x (List.eq_of_mem_replicate h).symm

theorem World.LiteralValue.ne_ref {w : World} {literal : Literal} {v : Value}
    (h : w.LiteralValue literal v) (x : Nat) : v ≠ .ref x := by
  cases literal with
  | type descriptor =>
    obtain ⟨handle, -, rfl⟩ := h
    simp
  | _ =>
    rw [World.LiteralValue] at h
    simp [h]

/-! ## What keeps an array in view -/

/--
A call does not come by an array that nothing in memory refers to, unless the array is passed to it,
and a safe call neither keeps nor returns an array that is passed to it.
-/
def World.Discreet (w : World) (safe : SafeCalls) : Prop :=
  ∀ site callee arguments mem result mem', w.calls site callee arguments mem result mem' →
    ∀ x elements, mem.heap x = some (.array elements) → mem.Hidden x →
      (.ref x ∈ arguments → safe.contains callee.signature = true) →
      (∃ elements', mem'.heap x = some (.array elements')) ∧ mem'.Hidden x ∧
        result ≠ some (.ref x)

/--
A call leaves an array alone that nothing in memory refers to, and does not start to refer to it,
unless the array is passed to a call that is not safe.
-/
def World.Confines (w : World) (safe : SafeCalls) : Prop :=
  ∀ site callee arguments mem result mem', w.calls site callee arguments mem result mem' →
    ∀ x elements, mem.heap x = some (.array elements) → mem.Hidden x →
      (.ref x ∈ arguments → safe.contains callee.signature = true) →
      mem'.heap x = some (.array elements) ∧ mem'.Hidden x ∧ result ≠ some (.ref x)

/-- Calls that leave an array alone do not come by it. -/
theorem World.Confines.discreet {w : World} {safe : SafeCalls} (h : w.Confines safe) :
    w.Discreet safe := by
  intro site callee arguments mem result mem' hcall x elements hcell hhidden hsafe
  obtain ⟨hkept, hrest⟩ := h site callee arguments mem result mem' hcall x elements hcell hhidden
    hsafe
  exact ⟨⟨elements, hkept⟩, hrest⟩

/-- The instruction puts a reference to an address into memory or passes it to an unsafe call. -/
def Leaks (safe : SafeCalls) (c : Slots Value) (x : Nat) : Instruction → Prop
  | .putField _ | .putStatic _ | .arrayStore => c.stack[0]? = some (.ref x)
  | .invoke callee => safe.contains callee.signature = false ∧
      .ref x ∈ c.stack.take callee.argumentSlots
  | _ => False

section

variable {w : World} {safe : SafeCalls} {site : Nat} {c : Slots Value} {mem mem' : Memory}
  {i : Instruction} {written : Value} {filled elements : List Value} {x : Nat}

/-- A call that does not leak the array is safe, if the array is passed to it at all. -/
theorem safe_of_not_leaks {callee : MethodRef} (hleak : ¬ Leaks safe c x (.invoke callee))
    (hmem : .ref x ∈ (c.stack.take callee.argumentSlots).reverse) :
    safe.contains callee.signature = true := by
  cases hsafe : safe.contains callee.signature with
  | true => rfl
  | false => exact absurd ⟨hsafe, List.mem_reverse.mp hmem⟩ hleak

/-- A call that the instruction makes does not come by the array. -/
theorem World.Discreet.invoke (hw : w.Discreet safe) {callee : MethodRef} {result : Option Value}
    (hcall : w.calls site callee (c.stack.take callee.argumentSlots).reverse mem result mem')
    (hcell : mem.heap x = some (.array elements)) (hhidden : mem.Hidden x)
    (hleak : ¬ Leaks safe c x (.invoke callee)) :
    (∃ elements', mem'.heap x = some (.array elements')) ∧ mem'.Hidden x ∧
      result ≠ some (.ref x) :=
  hw _ _ _ _ _ _ hcall x elements hcell hhidden (safe_of_not_leaks hleak)

/-- A call that the instruction makes leaves the array alone. -/
theorem World.Confines.invoke (hw : w.Confines safe) {callee : MethodRef} {result : Option Value}
    (hcall : w.calls site callee (c.stack.take callee.argumentSlots).reverse mem result mem')
    (hcell : mem.heap x = some (.array elements)) (hhidden : mem.Hidden x)
    (hleak : ¬ Leaks safe c x (.invoke callee)) : mem'.heap x = some (.array elements) :=
  (hw _ _ _ _ _ _ hcall x elements hcell hhidden (safe_of_not_leaks hleak)).1

/-- Nothing in memory refers to the array after an instruction that does not leak it. -/
theorem Effect.hidden (h : Effect w site c mem i written filled mem') (hw : w.Discreet safe)
    (hcell : mem.heap x = some (.array elements)) (hhidden : mem.Hidden x)
    (hleak : ¬ Leaks safe c x i) : mem'.Hidden x := by
  cases h with
  | newArray _ _ _ => exact hhidden.write (not_refers_initial _ _ x)
  | new _ =>
    refine hhidden.write ?_
    rintro ⟨field, hfield⟩
    exact Value.initial_ne_ref _ x hfield
  | @arrayStore _ address _ v stored _ hstack hstored _ _ =>
    refine hhidden.write fun hrefers => ?_
    rcases List.mem_or_eq_of_mem_set hrefers with hmem | rfl
    · exact hhidden.heap address _ hstored hmem
    · exact hleak (by simp [Leaks, hstack])
  | putStatic hstack =>
    refine hhidden.writeStatic ?_
    rintro rfl
    exact hleak (by simp [Leaks, hstack])
  | @putField field address fields v _ hstack hfields =>
    refine hhidden.write ?_
    rintro ⟨other, hother⟩
    dsimp only at hother
    split at hother
    · subst hother
      exact hleak (by simp [Leaks, hstack])
    · exact hhidden.heap address _ hfields ⟨other, hother⟩
  | invoke _ hcall _ => exact (hw.invoke hcall hcell hhidden hleak).2.1
  | _ => exact hhidden

/-- An address that is not in use is not that of the array. -/
theorem ne_of_fresh (hcell : mem.heap x = some (.array elements)) {address : Nat}
    (hfresh : mem.Fresh c address) : x ≠ address := by
  rintro rfl
  simp [hfresh.unused] at hcell

/-- An address at which an object stands is not that of the array. -/
theorem ne_of_object (hcell : mem.heap x = some (.array elements)) {address : Nat}
    {fields : FieldRef → Value} (hobject : mem.heap address = some (.object fields)) :
    x ≠ address := by
  rintro rfl
  simp [hcell] at hobject

/-- What an instruction makes and puts on the stack is not a reference to the array. -/
theorem Effect.ref_notMem_filled (h : Effect w site c mem i written filled mem')
    (hw : w.Discreet safe) (hcell : mem.heap x = some (.array elements)) (hhidden : mem.Hidden x)
    (hleak : ¬ Leaks safe c x i) (hcopy : i.isCopy = false) : .ref x ∉ filled := by
  cases h with
  | load _ | store _ | dup _ | dupX1 _ | swap _ | checkCast _ => simp [Instruction.isCopy] at hcopy
  | ldc hliteral => simpa using (hliteral.ne_ref x).symm
  | newArray _ _ hfresh | new hfresh => simpa using ne_of_fresh hcell hfresh
  | @arrayLoad _ address _ v _ _ _ hstored _ hv =>
    rw [List.mem_singleton]
    rintro rfl
    exact hhidden.heap address _ hstored (List.mem_of_getElem? hv)
  | @binary _ _ _ v _ _ hnumber =>
    rw [List.mem_singleton]
    rintro rfl
    simp [Value.isNumber] at hnumber
  | @unary _ _ v _ _ hnumber =>
    rw [List.mem_singleton]
    rintro rfl
    simp [Value.isNumber] at hnumber
  | getStatic hreads => simpa using (hhidden.ne_of_reads hreads).symm
  | @getField field address fields _ _ hfields =>
    rw [List.mem_singleton]
    exact fun heq => hhidden.heap address _ hfields ⟨field, heq.symm⟩
  | invoke _ hcall _ => simpa using (hw.invoke hcall hcell hhidden hleak).2.2
  | _ => simp [Value.ofBool]

/-- What an instruction makes is not a reference to the array. -/
theorem Effect.made_ne_ref (h : Effect w site c mem i written filled mem') (hw : w.Discreet safe)
    (hcell : mem.heap x = some (.array elements)) (hhidden : mem.Hidden x)
    (hleak : ¬ Leaks safe c x i) (hcopy : i.isCopy = false) {v : Value}
    (hv : v ∈ filled ∨ i.writtenSlot?.isSome = true ∧ v = written) : v ≠ .ref x := by
  rcases hv with hmem | ⟨hslot, rfl⟩
  · rintro rfl
    exact h.ref_notMem_filled hw hcell hhidden hleak hcopy hmem
  · cases h with
    | store _ => simp [Instruction.isCopy] at hcopy
    | increment _ => simp
    | _ => simp [Instruction.writtenSlot?] at hslot

/-- Only an array store can change the array. -/
theorem Effect.cell (h : Effect w site c mem i written filled mem') (hw : w.Confines safe)
    (hcell : mem.heap x = some (.array elements)) (hhidden : mem.Hidden x)
    (hleak : ¬ Leaks safe c x i) (hstore : i ≠ .arrayStore) :
    mem'.heap x = some (.array elements) := by
  cases h with
  | newArray _ _ hfresh | new hfresh =>
    rw [Memory.heap_write_of_ne (ne_of_fresh hcell hfresh)]
    exact hcell
  | arrayStore _ _ _ _ => exact absurd rfl hstore
  | putField _ hfields =>
    rw [Memory.heap_write_of_ne (ne_of_object hcell hfields)]
    exact hcell
  | invoke _ hcall _ => exact hw.invoke hcall hcell hhidden hleak
  | _ => exact hcell

/-- Whatever an instruction does to the array, it is still an array. -/
theorem Effect.exists_cell (h : Effect w site c mem i written filled mem') (hw : w.Discreet safe)
    (hcell : mem.heap x = some (.array elements)) (hhidden : mem.Hidden x)
    (hleak : ¬ Leaks safe c x i) : ∃ elements', mem'.heap x = some (.array elements') := by
  cases h with
  | newArray _ _ hfresh | new hfresh =>
    exact ⟨elements, (Memory.heap_write_of_ne (ne_of_fresh hcell hfresh)).trans hcell⟩
  | @arrayStore _ address index v stored _ _ _ _ _ =>
    by_cases hx : x = address
    · subst hx
      exact ⟨stored.set index v, Memory.heap_write_self⟩
    · exact ⟨elements, (Memory.heap_write_of_ne hx).trans hcell⟩
  | putField _ hfields =>
    exact ⟨elements, (Memory.heap_write_of_ne (ne_of_object hcell hfields)).trans hcell⟩
  | invoke _ hcall _ => exact (hw.invoke hcall hcell hhidden hleak).1
  | _ => exact ⟨elements, hcell⟩

end

/-! ## An array in view -/

/--
Nothing in memory refers to an address, and exactly those places hold a reference to it whose
content was made by the instruction at a site at some time.
-/
structure Tracks (m : MethodBody) (x time site : Nat) (trail : List Nat) (s : State) : Prop where
  past : time < trail.length
  hidden : s.memory.Hidden x
  slots : ∀ place v, s.slots.get? place = some v →
    (v = .ref x ↔ m.source trail place = .made time site)

variable {w : World} {m : MethodBody} {safe : SafeCalls} {s s' : State} {trail : List Nat}
  {x time site : Nat}

/-- An instruction that does not leak an array keeps it in view. -/
theorem Tracks.step (h : Tracks m x time site trail s) (hw : w.Discreet safe)
    {elements : List Value} (hcell : s.memory.heap x = some (.array elements))
    (hstep : Step w m s s')
    (hleak : ∀ i, m.code[s.pc]? = some i → ¬ Leaks safe s.slots x i) :
    Tracks m x time site (s.pc :: trail) s' := by
  cases hstep with
  | execute hcode heffect _ =>
    have hno := hleak _ hcode
    refine ⟨Nat.lt_succ_of_lt h.past, heffect.hidden hw hcell h.hidden hno, fun place v hv => ?_⟩
    rcases heffect.get? hv with ⟨old, hsource, hold⟩ | ⟨hsource, hcopy, hmade⟩
    · rw [MethodBody.source_cons_of_some hcode hsource]
      exact h.slots old v hold
    · -- what was made now is neither the array nor as old as it
      rw [MethodBody.source_cons_of_none hcode hsource]
      refine iff_of_false (heffect.made_ne_ref hw hcell h.hidden hno hcopy hmade) fun heq => ?_
      have hlt := h.past
      rw [← (Source.made.inj heq).1] at hlt
      omega

/-- An allocation brings a new array into view. -/
theorem tracks_of_newArray {element : Descriptor} (hcode : m.code[s.pc]? = some (.newArray element))
    (hstep : Step w m s s') (trail : List Nat) :
    ∃ x n length rest, s.slots.stack = .int n :: rest ∧ naturalOf? n = some length ∧
      s'.memory.heap x = some (.array (List.replicate length (.initial element))) ∧
      Tracks m x trail.length s.pc (s.pc :: trail) s' := by
  cases hstep with
  | execute hcode' heffect _ =>
    obtain rfl := Option.some.inj (hcode.symm.trans hcode')
    have hget := @heffect.get?
    cases heffect with
    | @newArray _ n length x rest hstack hlength hfresh =>
      refine ⟨x, n, length, rest, hstack, hlength, Memory.heap_write_self, ?_⟩
      refine ⟨Nat.lt_succ_self _, hfresh.hidden.write (not_refers_initial _ _ x), ?_⟩
      intro place v hv
      rcases hget hv with ⟨old, hsource, hold⟩ | ⟨hsource, -, hmade⟩
      · rw [MethodBody.source_cons_of_some hcode hsource]
        refine iff_of_false ?_ fun heq => ?_
        · rintro rfl
          exact hfresh.slots old hold
        · exact Nat.lt_irrefl _ (MethodBody.time_lt_of_source heq)
      · rw [MethodBody.source_cons_of_none hcode hsource]
        exact iff_of_true (by simpa [Instruction.writtenSlot?] using hmade) rfl

/-- An instruction at which an array does not escape does not leak it. -/
theorem Tracks.not_leaks {scope : Scope} {o : ArrayOrigin} {f : Frame} {i : Instruction}
    (hg : scope.graph.Solved) (h : Tracks scope.graph.body x time o.allocation trail s)
    (hpath : scope.graph.body.Path trail s.pc) (hf : scope.graph.frame? s.pc = some f)
    (hdepth : s.slots.stack.length = f.depth) (hescapes : scope.escapesAt o s.pc = false)
    (hi : scope.graph.instruction? s.pc = some i) : ¬ Leaks scope.safeCalls s.slots x i := by
  -- where the array is on the stack, the frame shows a possible alias
  have halias : ∀ below : Nat, s.slots.stack[below]? = some (Value.ref x) →
      ∃ set, f.stack[below]? = some set ∧ scope.graph.mayAlias set o.allocation = true := by
    intro below hbelow
    have hlt : below < f.stack.length := by
      rw [← Frame.depth, ← hdepth]
      exact (List.getElem?_eq_some_iff.mp hbelow).1
    have hset : f.view.get? (.stack below) = some f.stack[below] := List.getElem?_eq_getElem hlt
    have hsource := (h.slots (.stack below) _ hbelow).mp rfl
    exact ⟨_, hset, hg.mayAlias_of_source hpath hf hset hsource⟩
  have hnode := FrameGraph.node?_eq_some_iff.mpr ⟨hi, hf⟩
  rw [Scope.escapesAt, hnode] at hescapes
  intro hleaks
  cases i with
  | putField _ | putStatic _ | arrayStore =>
    obtain ⟨set, hset, hmay⟩ := halias 0 hleaks
    simp [Scope.aliases, Frame.top?, Frame.peek?, hset, hmay] at hescapes
  | invoke callee =>
    obtain ⟨hsafe, hmem⟩ := hleaks
    obtain ⟨below, hbelow⟩ := List.mem_iff_getElem?.mp hmem
    rw [List.getElem?_take] at hbelow
    split at hbelow
    · next hlt =>
      obtain ⟨set, hset, hmay⟩ := halias below hbelow
      have hargument : set ∈ f.arguments callee.argumentSlots := by
        refine List.mem_reverse.mpr (List.mem_of_getElem? (i := below) ?_)
        rw [List.getElem?_take, if_pos hlt, hset]
      have hcount : callee.argumentSlots ≤ f.depth := (hg.accepts hf hi).depth
      have hany : (f.arguments callee.argumentSlots).any
          (fun value => scope.graph.mayAlias value o.allocation) = true :=
        List.any_eq_true.mpr ⟨set, hargument, hmay⟩
      simp [hsafe, hcount, hany] at hescapes
    · simp at hbelow
  | _ => exact hleaks

/-! ## What a step does to an array in view -/

/-- What an array store does. -/
theorem Step.heap_arrayStore (h : Step w m s s') (hcode : m.code[s.pc]? = some .arrayStore) :
    ∃ v n address index elements rest, s.slots.stack = v :: .int n :: .ref address :: rest ∧
      s.memory.heap address = some (.array elements) ∧ naturalOf? n = some index ∧
      index < elements.length ∧
      s'.memory = s.memory.write address (.array (elements.set index v)) := by
  cases h with
  | execute hcode' heffect _ =>
    obtain rfl := Option.some.inj (hcode.symm.trans hcode')
    cases heffect with
    | arrayStore hstack hcell hindex hlt =>
      exact ⟨_, _, _, _, _, _, hstack, hcell, hindex, hlt, rfl⟩

/-- An array store to something else leaves an array in view as it is. -/
theorem Tracks.heap_of_source_ne (h : Tracks m x time site trail s) (hstep : Step w m s s')
    (hcode : m.code[s.pc]? = some .arrayStore)
    (hne : m.source trail (.stack 2) ≠ .made time site) :
    s'.memory.heap x = s.memory.heap x := by
  obtain ⟨v, n, address, index, elements, rest, hstack, -, -, -, hmemory⟩ :=
    hstep.heap_arrayStore hcode
  have hreference : s.slots.get? (.stack 2) = some (.ref address) := by simp [Slots.get?, hstack]
  have hx : x ≠ address := by
    rintro rfl
    exact hne ((h.slots _ _ hreference).mp rfl)
  rw [hmemory, Memory.heap_write_of_ne hx]

/-- Only an array store changes an array that does not leak. -/
theorem Step.heap_of_ne_arrayStore {i : Instruction} {elements : List Value} (h : Step w m s s')
    (hw : w.Confines safe) (hcode : m.code[s.pc]? = some i) (hne : i ≠ .arrayStore)
    (hcell : s.memory.heap x = some (.array elements)) (hhidden : s.memory.Hidden x)
    (hleak : ¬ Leaks safe s.slots x i) : s'.memory.heap x = some (.array elements) := by
  cases h with
  | execute hcode' heffect _ =>
    obtain rfl := Option.some.inj (hcode.symm.trans hcode')
    exact heffect.cell hw hcell hhidden hleak hne

end CallFold.Machine
