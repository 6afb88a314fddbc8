import CallFold.ConstantArray
import CallFold.Proofs.FixedPoint

/-!
# Where a value comes from

A frame names the instructions that produced a value last, and an instruction that only hands a
value on counts as one of them. `MethodBody.source` looks further back: it follows a value along a
trail through the instructions that copy it, to the one that made it or to the entry.

What the entry supplied has no producer, so it is invisible in a frame. This is why a chain of
single producers does not tell where a value comes from, but only where it comes from if not from
the entry (`Solved.source_of_leads`). If it cannot come from there, it comes from the latest
execution of the instruction at the end of the chain (`Solved.source_eq_latest`).
-/

namespace CallFold

namespace Instruction

/-- Where the value that the instruction writes to a local slot was before, unless it made it. -/
def writtenFrom? : Instruction → Option Place
  | store _ => some (.stack 0)
  | _ => none

/-- Where a value that the instruction puts on the stack was before, unless it made it. -/
def pushedFrom? : Instruction → Nat → Option Place
  | load slot, _ => some (.slot slot)
  | dup, _ | checkCast _, _ => some (.stack 0)
  | dupX1, below => some (.stack (if below = 1 then 1 else 0))
  | swap, below => some (.stack (if below = 0 then 1 else 0))
  | _, _ => none

/-- Where the content of a place was before the instruction, unless the instruction made it. -/
def source? (i : Instruction) : Place → Option Place
  | .slot index => if i.writtenSlot? = some index then i.writtenFrom? else some (.slot index)
  | .stack below =>
    if below < i.filled then i.pushedFrom? below
    else some (.stack (below - i.filled + i.cleared))

/-- Whether everything new that the instruction puts into a place is a copy. -/
def isCopy : Instruction → Bool
  | load _ | store _ | dup | dupX1 | swap | checkCast _ => true
  | _ => false

/-- The place that an instruction copies, if it copies a single one. -/
def copiedPlace? : Instruction → Option Place
  | load slot => some (.slot slot)
  | store _ | dup | checkCast _ => some (.stack 0)
  | _ => none

variable {i : Instruction} {place old : Place}

theorem source?_of_before (h : i.before place = some old) : i.source? place = some old := by
  cases place with
  | slot index =>
    obtain ⟨hne, rfl⟩ := before_slot_eq_some_iff.mp h
    exact if_neg hne
  | stack below =>
    obtain ⟨hle, rfl⟩ := before_stack_eq_some_iff.mp h
    exact if_neg (Nat.not_lt.mpr hle)

/-- Only a local slot that is not written was that local slot before. -/
theorem eq_of_before_slot {slot : Nat} (h : i.before place = some (.slot slot)) :
    place = .slot slot := by
  cases place with
  | slot index => exact (before_slot_eq_some_iff.mp h).2.symm
  | stack below => exact absurd (before_stack_eq_some_iff.mp h).2 (by simp)

/-- What is new comes from nowhere if the instruction is not a copy. -/
theorem source?_of_not_copy (hcopy : i.isCopy = false) (h : i.before place = none) :
    i.source? place = none := by
  cases place with
  | slot index =>
    rw [source?, if_pos (before_slot_eq_none_iff.mp h)]
    cases i <;> simp_all [isCopy, writtenFrom?]
  | stack below =>
    rw [source?, if_pos (before_stack_eq_none_iff.mp h)]
    cases i <;> simp_all [isCopy, pushedFrom?]

/-- What is new comes from the place that is copied. -/
theorem source?_of_copiedPlace (hcopy : i.copiedPlace? = some old) (h : i.before place = none) :
    i.source? place = some old := by
  cases place with
  | slot index =>
    have hwritten := before_slot_eq_none_iff.mp h
    rw [source?, if_pos hwritten]
    cases i <;> simp_all [copiedPlace?, writtenSlot?, writtenFrom?]
  | stack below =>
    have hlt := before_stack_eq_none_iff.mp h
    rw [source?, if_pos hlt]
    cases i <;> simp_all [copiedPlace?, pushedFrom?, filled, pushes]

end Instruction

theorem copiedSlot?_eq (i : Instruction) (f : Frame) :
    FrameGraph.copiedSlot? i f = i.copiedPlace?.bind f.view.get? := by
  cases i <;> rfl

theorem IndexSet.single?_singleton (p : Nat) : (IndexSet.singleton p).single? = some p := rfl

/-- A set has a single member exactly if it is a singleton. -/
theorem IndexSet.single?_eq_some_iff {set : IndexSet} {p : Nat} :
    set.single? = some p ↔ set = .singleton p := by
  constructor
  · intro h
    unfold single? at h
    split at h
    · next i hlist =>
      obtain rfl := Option.some.inj h
      exact ext_mem fun j => by rw [mem_def, hlist, List.mem_singleton, mem_singleton]
    · simp at h
  · rintro rfl
    exact single?_singleton p

theorem IndexSet.eq_of_single? {s : IndexSet} {p q : Nat} (h : s.single? = some p) (hq : q ∈ s) :
    q = p :=
  mem_singleton.mp (single?_eq_some_iff.mp h ▸ hq)

/-! ## Sources -/

/-- Where a value comes from: a place at the entry, or an instruction and when it was executed. -/
inductive Source where
  | entry (place : Place)
  | made (time index : Nat)
deriving DecidableEq

namespace MethodBody

variable {m : MethodBody} {trail : List Nat} {i j : Nat} {place : Place}

/-- Where the content of a place comes from after a trail. -/
def source (m : MethodBody) : List Nat → Place → Source
  | [], place => .entry place
  | i :: trail, place =>
    match m.code[i]? with
    | none => source m trail place
    | some instruction =>
      match instruction.source? place with
      | some old => source m trail old
      | none => .made trail.length i

theorem source_cons_of_some {instruction : Instruction} {old : Place}
    (h : m.code[i]? = some instruction) (hsource : instruction.source? place = some old) :
    m.source (i :: trail) place = m.source trail old := by
  rw [source, h]
  simp only [hsource]

theorem source_cons_of_none {instruction : Instruction} (h : m.code[i]? = some instruction)
    (hsource : instruction.source? place = none) :
    m.source (i :: trail) place = .made trail.length i := by
  rw [source, h]
  simp only [hsource]

/-- What was made along a trail was made by an instruction of the trail, at its time. -/
theorem exists_of_source_eq_made {time : Nat} (h : m.source trail place = .made time j) :
    ∃ later earlier, trail = later ++ j :: earlier ∧ earlier.length = time := by
  induction trail generalizing place with
  | nil => simp [source] at h
  | cons i trail ih =>
    rw [source] at h
    split at h
    · obtain ⟨later, earlier, rfl, htime⟩ := ih h
      exact ⟨i :: later, earlier, rfl, htime⟩
    · split at h
      · obtain ⟨later, earlier, rfl, htime⟩ := ih h
        exact ⟨i :: later, earlier, rfl, htime⟩
      · obtain ⟨rfl, rfl⟩ := Source.made.inj h
        exact ⟨[], trail, rfl, rfl⟩

theorem time_lt_of_source {time : Nat} (h : m.source trail place = .made time j) :
    time < trail.length := by
  obtain ⟨later, earlier, rfl, rfl⟩ := exists_of_source_eq_made h
  rw [List.length_append, List.length_cons]
  omega

/-- A value that was there before the later part of a trail comes from the earlier part. -/
theorem source_append_of_entry {later earlier : List Nat} {old : Place}
    (h : m.source later place = .entry old) :
    m.source (later ++ earlier) place = m.source earlier old := by
  induction later generalizing place with
  | nil =>
    rw [source] at h
    rw [Source.entry.inj h]
    rfl
  | cons i later ih =>
    rw [List.cons_append, source]
    rw [source] at h
    split at h
    · exact ih h
    · split at h
      · exact ih h
      · simp at h

/-- A value that was made in the later part of a trail was made in the whole. -/
theorem source_append_of_made {later earlier : List Nat} {time : Nat}
    (h : m.source later place = .made time j) :
    m.source (later ++ earlier) place = .made (time + earlier.length) j := by
  induction later generalizing place with
  | nil => simp [source] at h
  | cons i later ih =>
    rw [List.cons_append, source]
    rw [source] at h
    split at h
    · exact ih h
    · split at h
      · exact ih h
      · obtain ⟨rfl, rfl⟩ := Source.made.inj h
        rw [List.length_append]

/-- A path has been where its trail says. -/
theorem Path.of_append {later earlier : List Nat} (h : m.Path (later ++ j :: earlier) i) :
    m.Path earlier j := by
  induction later generalizing i with
  | nil =>
    cases h with
    | step hpath _ _ => exact hpath
  | cons k later ih =>
    cases h with
    | step hpath _ _ => exact ih hpath

theorem Path.of_suffix {earlier : List Nat} (h : m.Path trail i)
    (hsuffix : j :: earlier <:+ i :: trail) : m.Path earlier j := by
  rcases List.suffix_cons_iff.mp hsuffix with heq | ⟨later, rfl⟩
  · obtain ⟨rfl, rfl⟩ := List.cons.inj heq
    exact h
  · exact h.of_append

/-- How control came to an instruction does not matter for where it goes from there. -/
theorem Path.replace {later earlier earlier' : List Nat} (h : m.Path (later ++ j :: earlier) i)
    (h' : m.Path earlier' j) : m.Path (later ++ j :: earlier') i := by
  induction later generalizing i with
  | nil =>
    cases h with
    | step _ hedge hlt => exact .step h' hedge hlt
  | cons k later ih =>
    cases h with
    | step hpath hedge hlt => exact .step (ih hpath) hedge hlt

/-- There was a first time that control was at an instruction. -/
theorem exists_first (j : Nat) (trail : List Nat) :
    ∃ first, j :: first <:+ j :: trail ∧ j ∉ first := by
  induction hn : trail.length using Nat.strongRecOn generalizing trail with
  | _ n ih =>
    by_cases hmem : j ∈ trail
    · obtain ⟨later, earlier, rfl⟩ := List.append_of_mem hmem
      have hlt : earlier.length < n := by
        rw [← hn, List.length_append, List.length_cons]
        omega
      obtain ⟨first, hsuffix, hfirst⟩ := ih earlier.length hlt earlier rfl
      have hearlier : j :: earlier <:+ j :: (later ++ j :: earlier) :=
        (List.suffix_append later _).trans (List.suffix_cons j _)
      exact ⟨first, hsuffix.trans hearlier, hfirst⟩
    · exact ⟨trail, List.suffix_refl _, hmem⟩

/-! ## The last producer -/

/-- What has no last producer is a local slot as it was at the entry. -/
theorem source_of_no_producer (h : m.Path trail i)
    (hlast : (m.lastProducers trail).get? place = some none) :
    m.source trail place = .entry place ∧ ∃ slot, place = .slot slot := by
  induction h generalizing place with
  | entry _ =>
    refine ⟨rfl, ?_⟩
    cases place with
    | slot slot => exact ⟨slot, rfl⟩
    | stack below => simp [lastProducers, Slots.get?] at hlast
  | @step trail i j hpath _ _ ih =>
    obtain ⟨instruction, hcode⟩ := exists_code hpath.lt_length
    rw [lastProducers_cons hcode] at hlast
    cases hbefore : instruction.before place with
    | none =>
      rcases Slots.get?_change_of_new List.length_replicate hbefore hlast with ⟨-, heq⟩ | hmem
      · simp at heq
      · simp at hmem
    | some old =>
      rw [Slots.get?_change_of_before List.length_replicate hbefore] at hlast
      obtain ⟨hsource, slot, rfl⟩ := ih hlast
      obtain rfl := Instruction.eq_of_before_slot hbefore
      refine ⟨?_, slot, rfl⟩
      rw [source_cons_of_some hcode (Instruction.source?_of_before hbefore)]
      exact hsource

/-- The last producer put a value into a new place, and it has not been handed on since. -/
theorem source_of_producer {p : Nat} (h : m.Path trail i)
    (hlast : (m.lastProducers trail).get? place = some (some p)) :
    ∃ later earlier new instruction, trail = later ++ p :: earlier ∧
      m.code[p]? = some instruction ∧ instruction.before new = none ∧
      m.source trail place = m.source (p :: earlier) new := by
  induction h generalizing place with
  | entry _ =>
    cases place with
    | slot slot =>
      simp only [lastProducers, Slots.get?, List.getElem?_replicate] at hlast
      split at hlast
      · simp at hlast
      · simp at hlast
    | stack below => simp [lastProducers, Slots.get?] at hlast
  | @step trail i j hpath _ _ ih =>
    obtain ⟨instruction, hcode⟩ := exists_code hpath.lt_length
    rw [lastProducers_cons hcode] at hlast
    cases hbefore : instruction.before place with
    | none =>
      obtain rfl : p = i := by
        rcases Slots.get?_change_of_new List.length_replicate hbefore hlast with ⟨-, heq⟩ | hmem
        · exact Option.some.inj heq
        · exact Option.some.inj (List.eq_of_mem_replicate hmem)
      exact ⟨[], trail, place, instruction, rfl, hcode, hbefore, rfl⟩
    | some old =>
      rw [Slots.get?_change_of_before List.length_replicate hbefore] at hlast
      obtain ⟨later, earlier, new, instruction', rfl, hcode', hnew, hsource⟩ := ih hlast
      refine ⟨i :: later, earlier, new, instruction', rfl, hcode', hnew, ?_⟩
      rw [source_cons_of_some hcode (Instruction.source?_of_before hbefore)]
      exact hsource

end MethodBody

/-! ## Frames and sources -/

namespace FrameGraph

variable {g : FrameGraph} {i : Nat} {f : Frame} {place : Place} {set : IndexSet}
  {trail : List Nat}

/--
A value has a producer that put it where it is, or lies in a local slot as it did at the entry.
-/
theorem Solved.exists_producer (hg : g.Solved) (hpath : g.body.Path trail i)
    (hf : g.frame? i = some f) (hset : f.view.get? place = some set) :
    (g.body.source trail place = .entry place ∧
      ∃ slot, slot < g.body.maxLocals ∧ place = .slot slot) ∨
    ∃ p ∈ set, ∃ later earlier new instruction, trail = later ++ p :: earlier ∧
      g.body.Path earlier p ∧ g.instruction? p = some instruction ∧
      instruction.before new = none ∧
      g.body.source trail place = g.body.source (p :: earlier) new := by
  obtain ⟨f', hf', -, hcovers⟩ := hg.covers hpath
  obtain rfl : f = f' := Option.some.inj (hf.symm.trans hf')
  obtain ⟨last, hlast, hincludes⟩ := hcovers.get? hset
  cases last with
  | none =>
    obtain ⟨hsource, slot, rfl⟩ := MethodBody.source_of_no_producer hpath hlast
    refine Or.inl ⟨hsource, slot, ?_, rfl⟩
    rw [← (hg.justified i f hf).length]
    exact (List.getElem?_eq_some_iff.mp hset).1
  | some p =>
    obtain ⟨later, earlier, new, instruction, rfl, hcode, hnew, hsource⟩ :=
      MethodBody.source_of_producer hpath hlast
    exact Or.inr ⟨p, hincludes p rfl, later, earlier, new, instruction, rfl, hpath.of_append, hcode,
      hnew, hsource⟩

/-- A chain of single producers leads from a value to an instruction. -/
inductive Leads (g : FrameGraph) : IndexSet → Nat → Prop where
  | here {set : IndexSet} {p : Nat} (hsingle : set.single? = some p) : Leads g set p
  | hop {set held : IndexSet} {p q : Nat} {instruction : Instruction} {f : Frame}
      (hsingle : set.single? = some p) (hnode : g.node? p = some (instruction, f))
      (hheld : copiedSlot? instruction f = some held) (hrest : Leads g held q) : Leads g set q

/--
A value comes from the instruction to which a chain of single producers leads, or from the entry.
-/
theorem Solved.source_of_leads (hg : g.Solved) {q : Nat} {maker : Instruction}
    (hleads : g.Leads set q) (hq : g.instruction? q = some maker) (hmakes : maker.isCopy = false)
    (hpath : g.body.Path trail i) (hf : g.frame? i = some f)
    (hset : f.view.get? place = some set) :
    (∃ slot, slot < g.body.maxLocals ∧ g.body.source trail place = .entry (.slot slot)) ∨
      ∃ time, g.body.source trail place = .made time q := by
  induction hleads generalizing trail i f place with
  | @here set p hsingle =>
    rcases hg.exists_producer hpath hf hset with ⟨hsource, slot, hslot, rfl⟩ | hproducer
    · exact Or.inl ⟨slot, hslot, hsource⟩
    · obtain ⟨p', hp', -, earlier, new, instruction, -, -, hcode, hnew, hsource⟩ := hproducer
      obtain rfl := IndexSet.eq_of_single? hsingle hp'
      obtain rfl : instruction = maker := Option.some.inj (hcode.symm.trans hq)
      refine Or.inr ⟨earlier.length, ?_⟩
      rw [hsource, MethodBody.source_cons_of_none hcode
        (Instruction.source?_of_not_copy hmakes hnew)]
  | @hop set held p q instruction fp hsingle hnode hheld _ ih =>
    rcases hg.exists_producer hpath hf hset with ⟨hsource, slot, hslot, rfl⟩ | hproducer
    · exact Or.inl ⟨slot, hslot, hsource⟩
    · obtain ⟨p', hp', -, earlier, new, instruction', -, hpath', hcode, hnew, hsource⟩ := hproducer
      obtain rfl := IndexSet.eq_of_single? hsingle hp'
      obtain ⟨hi, hfp⟩ := node?_eq_some_iff.mp hnode
      obtain rfl : instruction = instruction' := Option.some.inj (hi.symm.trans hcode)
      -- the rest of the chain starts from the place that was copied, at the time of the copy
      rw [copiedSlot?_eq] at hheld
      obtain ⟨old, hold, hget⟩ := Option.bind_eq_some_iff.mp hheld
      rw [hsource, MethodBody.source_cons_of_some hcode
        (Instruction.source?_of_copiedPlace hold hnew)]
      exact ih hq hpath' hfp hget

/-- No path brings a value with which the method started to a place. -/
def EntryFree (g : FrameGraph) (i : Nat) (place : Place) : Prop :=
  ∀ trail slot, g.body.Path trail i → slot < g.body.maxLocals →
    g.body.source trail place ≠ .entry (.slot slot)

/-- Without values from the entry, a chain of single producers tells where a value comes from. -/
theorem Solved.source_of_entryFree (hg : g.Solved) {q : Nat} {maker : Instruction}
    (hfree : g.EntryFree i place) (hleads : g.Leads set q) (hq : g.instruction? q = some maker)
    (hmakes : maker.isCopy = false) (hpath : g.body.Path trail i) (hf : g.frame? i = some f)
    (hset : f.view.get? place = some set) : ∃ time, g.body.source trail place = .made time q := by
  rcases hg.source_of_leads hleads hq hmakes hpath hf hset with ⟨slot, hslot, hentry⟩ | hmade
  · exact absurd hentry (hfree trail slot hpath hslot)
  · exact hmade

/-- Without values from the entry, the instruction at the end of the chain was executed. -/
theorem Solved.mem_trail_of_leads (hg : g.Solved) {q : Nat} {maker : Instruction}
    (hfree : g.EntryFree i place) (hleads : g.Leads set q) (hq : g.instruction? q = some maker)
    (hmakes : maker.isCopy = false) (hpath : g.body.Path trail i) (hf : g.frame? i = some f)
    (hset : f.view.get? place = some set) : q ∈ trail := by
  obtain ⟨time, htime⟩ := hg.source_of_entryFree hfree hleads hq hmakes hpath hf hset
  obtain ⟨later, earlier, rfl, -⟩ := MethodBody.exists_of_source_eq_made htime
  exact List.mem_append_right later List.mem_cons_self

/-- Without values from the entry, a value comes from the latest execution of that instruction. -/
theorem Solved.source_eq_latest (hg : g.Solved) {q : Nat} {maker : Instruction}
    {recent earlier : List Nat} (hfree : g.EntryFree i place) (hleads : g.Leads set q)
    (hq : g.instruction? q = some maker) (hmakes : maker.isCopy = false)
    (hpath : g.body.Path (recent ++ q :: earlier) i) (hrecent : q ∉ recent)
    (hf : g.frame? i = some f) (hset : f.view.get? place = some set) :
    g.body.source (recent ++ q :: earlier) place = .made earlier.length q := by
  obtain ⟨time, htime⟩ := hg.source_of_entryFree hfree hleads hq hmakes hpath hf hset
  cases hsource : g.body.source recent place with
  | made t j =>
    obtain ⟨later, past, rfl, -⟩ := MethodBody.exists_of_source_eq_made hsource
    rw [MethodBody.source_append_of_made hsource] at htime
    obtain ⟨-, rfl⟩ := Source.made.inj htime
    exact absurd (List.mem_append_right later List.mem_cons_self) hrecent
  | entry old =>
    rw [MethodBody.source_append_of_entry hsource]
    cases hold : maker.source? old with
    | none => exact MethodBody.source_cons_of_none hq hold
    | some older =>
      -- the first time, there had been no earlier execution from which the value could come
      obtain ⟨first, hsuffix, hfirst⟩ := MethodBody.exists_first q earlier
      have hpath' := hpath.replace (hpath.of_append.of_suffix hsuffix)
      obtain ⟨time', htime'⟩ := hg.source_of_entryFree hfree hleads hq hmakes hpath' hf hset
      rw [MethodBody.source_append_of_entry hsource, MethodBody.source_cons_of_some hq hold]
        at htime'
      obtain ⟨later, past, rfl, -⟩ := MethodBody.exists_of_source_eq_made htime'
      exact absurd (List.mem_append_right later List.mem_cons_self) hfirst

end FrameGraph

end CallFold
