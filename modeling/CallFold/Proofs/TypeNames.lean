import CallFold.Proofs.RoundTrip
import CallFold.Reflection
import CallFold.Universe.Lookup
import Mathlib

/-!
# Names of types

A type is named by a descriptor, by a handle, and by the binary name under which it is looked up.
Binary names have dots where descriptors have slashes, and a look-up of an array turns the dots back
into slashes and reads the result as a descriptor.

* `type_names_agree`: for every descriptor that can be read, the three ways lead to the same type.
* `classForName_spellings`: which strings are accepted as the name of a type. A class has one name.
  An array has its binary name, but also every string that becomes this name when slashes are
  replaced by dots: the replacement in the other direction does not ask whether there were slashes
  before.
* `classForName_accepts_slashes`: such a string.
-/

namespace CallFold

/-! ## Dots and slashes -/

section Replacing

variable {old new : Char}

theorem map_replace_eq_self_iff (hne : new ≠ old) {text : List Char} :
    (text.map fun c => if c = old then new else c) = text ↔ old ∉ text := by
  induction text with
  | nil => simp
  | cons c rest ih =>
    rw [List.map_cons, List.cons.injEq, ih, List.mem_cons, not_or]
    refine and_congr_left fun _ => ?_
    by_cases hc : c = old
    · rw [if_pos hc]
      exact iff_of_false (fun h => hne (h.trans hc)) fun h => h hc.symm
    · rw [if_neg hc]
      exact iff_of_true rfl fun h => hc h.symm

/-- To replace a character and then to replace it back leaves none of the other kind. -/
theorem map_replace_map_replace (text : List Char) :
    ((text.map fun c => if c = old then new else c).map fun c => if c = new then old else c) =
      text.map fun c => if c = new then old else c := by
  rw [List.map_map]
  refine List.map_congr_left fun c _ => ?_
  show (if (if c = old then new else c) = new then old else if c = old then new else c) = _
  by_cases hc : c = old
  · rw [if_pos hc, if_pos rfl, hc, ite_self]
  · rw [if_neg hc]

/-- A character that is neither the old one nor the new one starts a text before if it does after. -/
theorem head?_map_replace_iff {mark : Char} (hold : mark ≠ old) (hnew : mark ≠ new)
    {text : List Char} :
    (text.map fun c => if c = old then new else c).head? = some mark ↔ text.head? = some mark := by
  cases text with
  | nil => rfl
  | cons c rest =>
    rw [List.map_cons, List.head?_cons, List.head?_cons, Option.some.injEq, Option.some.injEq]
    by_cases hc : c = old
    · rw [if_pos hc, hc]
      exact iff_of_false hnew.symm hold.symm
    · rw [if_neg hc]

end Replacing

section Separators

variable {s : String}

theorem slashed_eq_self_iff : slashed s = s ↔ '.' ∉ s.toList := by
  rw [slashed, ofList_eq_iff, eq_comm]
  exact map_replace_eq_self_iff (by decide)

theorem dotted_eq_self_iff : dotted s = s ↔ '/' ∉ s.toList := by
  rw [dotted, ofList_eq_iff, eq_comm]
  exact map_replace_eq_self_iff (by decide)

theorem slashed_dotted (s : String) : slashed (dotted s) = slashed s := by
  rw [slashed, dotted, String.toList_ofList, map_replace_map_replace]
  rfl

theorem dotted_slashed (s : String) : dotted (slashed s) = dotted s := by
  rw [dotted, slashed, String.toList_ofList, map_replace_map_replace]
  rfl

/-- Whether a name is that of an array: it starts with a bracket. -/
def Bracketed (s : String) : Prop := s.toList.head? = some '['

theorem bracketed_dotted_iff : Bracketed (dotted s) ↔ Bracketed s := by
  rw [Bracketed, dotted, String.toList_ofList]
  exact head?_map_replace_iff (by decide) (by decide)

theorem bracketed_slashed_iff : Bracketed (slashed s) ↔ Bracketed s := by
  rw [Bracketed, slashed, String.toList_ofList]
  exact head?_map_replace_iff (by decide) (by decide)

end Separators

/-! ## Handles and descriptors -/

namespace Descriptor

variable {d : Descriptor}

/-- A descriptor is printed without dots. -/
theorem dot_notMem_chars (h : d.ValidElement) : '.' ∉ d.chars := by
  induction d with
  | primitive type => cases type <;> decide
  | object name =>
    intro hdot
    have hname : '.' ∈ name.toList := by simpa [chars] using hdot
    have hbanned := (h.2 '.' hname).1
    exact absurd hbanned (by decide)
  | array component ih =>
    intro hdot
    rcases List.mem_cons.mp hdot with heq | hdot
    · exact absurd heq (by decide)
    · exact ih h hdot

theorem slashed_render (h : d.ValidElement) : slashed d.render = d.render := by
  rw [slashed_eq_self_iff, render, String.toList_ofList]
  exact dot_notMem_chars h

/-- A valid class name does not start with a bracket, nor does it with dots for slashes. -/
theorem not_bracketed_of_validName {name : String} (h : ValidName name) : ¬ Bracketed name := by
  intro hbracket
  have hbanned := (h.2 '[' (List.mem_of_head? hbracket)).1
  exact absurd hbanned (by decide)

/-- A printed descriptor starts with a bracket exactly if it is that of an array. -/
theorem bracketed_render_iff : Bracketed d.render ↔ ∃ component, d = array component := by
  rw [Bracketed, render, String.toList_ofList]
  cases d with
  | primitive type => cases type <;> simp [chars, Primitive.symbol]
  | object name => simp [chars]
  | array component => simp [chars]

end Descriptor

namespace TypeHandle

variable {d : Descriptor}

/-- The handle of a descriptor has this descriptor. -/
theorem descriptor_ofDescriptor (h : d.ValidElement) : (ofDescriptor d).descriptor = d.render := by
  symm
  rw [Descriptor.render_eq_iff]
  induction d with
  | primitive type => exact String.toList_singleton _
  | object name =>
    have hname : slashed (dotted name) = name := by
      rw [slashed_dotted, slashed_eq_self_iff]
      intro hdot
      exact absurd (h.2 '.' hdot).1 (by decide)
    rw [ofDescriptor, descriptor, hname, String.toList_append, String.toList_append]
    rfl
  | array component ih =>
    rw [ofDescriptor, descriptor, String.toList_append, ih h]
    rfl

theorem binaryName_ofDescriptor (h : d.ValidElement) :
    (ofDescriptor d).binaryName = d.binaryName := by
  cases d with
  | primitive type => rfl
  | object name => rfl
  | array component =>
    show dotted (ofDescriptor (.array component)).descriptor = dotted _
    rw [descriptor_ofDescriptor h]

end TypeHandle

/-! ## Resolving descriptors -/

/-- A call that looks a class up is resolved to the type that is found under the name. -/
theorem ReflectiveCall.outcome_resolveClass_iff {m : Metadata} {name : String} {t : TypeHandle} :
    (resolveClass m name).outcome = .resolved (.type t) ↔ m.classForName name = some t := by
  unfold resolveClass
  cases m.classForName name <;> simp

namespace Universe

variable {u : Universe} {d : Descriptor}

/-- The innermost type of a descriptor is primitive or a known class. -/
def Knows (u : Universe) (d : Descriptor) : Prop :=
  (∃ type, d.element = .primitive type) ∨
    ∃ name c, d.element = .object name ∧ u.class? (dotted name) = some c

theorem classHandle?_eq_some_iff {name : String} {t : TypeHandle} :
    u.classHandle? name = some t ↔ t = .named name ∧ ∃ c, u.class? name = some c := by
  rw [classHandle?, Option.map_eq_some_iff]
  constructor
  · rintro ⟨c, hc, rfl⟩
    rw [ClassInfo.handle, name_of_class? hc]
    exact ⟨rfl, c, hc⟩
  · rintro ⟨rfl, c, hc⟩
    refine ⟨c, hc, ?_⟩
    rw [ClassInfo.handle, name_of_class? hc]

theorem resolveWith_classHandle?_eq_some_iff {t : TypeHandle} :
    resolveWith u.classHandle? d = some t ↔ u.Knows d ∧ t = TypeHandle.ofDescriptor d := by
  induction d generalizing t with
  | primitive type =>
    simp [resolveWith, Knows, Descriptor.element, TypeHandle.ofDescriptor, eq_comm]
  | object name =>
    rw [resolveWith, classHandle?_eq_some_iff]
    simp [Knows, Descriptor.element, TypeHandle.ofDescriptor, and_comm]
  | array component ih =>
    rw [resolveWith, Option.map_eq_some_iff]
    simp only [ih]
    constructor
    · rintro ⟨t, ⟨hknows, rfl⟩, rfl⟩
      exact ⟨hknows, rfl⟩
    · rintro ⟨hknows, rfl⟩
      exact ⟨_, ⟨hknows, rfl⟩, rfl⟩

/-! ## Looking types up by name -/

variable {s other : String} {t : TypeHandle}

theorem classForName_of_not_bracketed (h : ¬ Bracketed s) : u.classForName s = u.classHandle? s :=
  if_neg h

theorem classForName_bracketed_iff (hs : Bracketed s) :
    u.classForName s = some t ↔
      ∃ d : Descriptor, d.WellFormed ∧ d.render = slashed s ∧ u.Knows d ∧ t = .ofDescriptor d := by
  have hhead : s.toList.head? = some '[' := hs
  unfold classForName
  rw [if_pos hhead]
  cases hparse : Descriptor.parse (slashed s) with
  | error e =>
    refine iff_of_false (by simp) ?_
    rintro ⟨d, hd, hrender, -⟩
    rw [Descriptor.parse_eq_ok_iff.mpr ⟨hd, hrender⟩] at hparse
    cases hparse
  | ok d =>
    rw [resolveWith_classHandle?_eq_some_iff]
    constructor
    · rintro ⟨hknows, rfl⟩
      obtain ⟨hd, hrender⟩ := Descriptor.parse_eq_ok_iff.mp hparse
      exact ⟨d, hd, hrender, hknows, rfl⟩
    · rintro ⟨d', hd', hrender, hknows, rfl⟩
      rw [Descriptor.parse_eq_ok_iff.mpr ⟨hd', hrender⟩] at hparse
      obtain rfl : d' = d := Except.ok.inj hparse
      exact ⟨hknows, rfl⟩

/-- The name of an array is read with slashes, whatever separators it has. -/
theorem classForName_congr (hs : Bracketed s) (h : slashed other = slashed s) :
    u.classForName other = u.classForName s := by
  have hother : Bracketed other := by
    rw [← bracketed_slashed_iff, h, bracketed_slashed_iff]
    exact hs
  ext t
  rw [classForName_bracketed_iff hs, classForName_bracketed_iff hother, h]

/-- The class in a descriptor that was read is looked up as a class, not as an array. -/
theorem resolveWith_classForName (h : d.ValidElement) :
    resolveWith u.classForName d = resolveWith u.classHandle? d := by
  induction d with
  | primitive type => rfl
  | object name =>
    refine classForName_of_not_bracketed ?_
    rw [bracketed_dotted_iff]
    exact Descriptor.not_bracketed_of_validName h
  | array component ih => rw [resolveWith, resolveWith, ih h]

theorem resolveDescriptor_eq_some_iff (h : d.WellFormed) :
    u.metadata.resolveDescriptor d = some t ↔ u.Knows d ∧ t = .ofDescriptor d := by
  show resolveWith u.classForName d = some t ↔ _
  rw [resolveWith_classForName h.2, resolveWith_classHandle?_eq_some_iff]

/-- A reference type is found under its binary name exactly if its descriptor resolves. -/
theorem classForName_binaryName (h : d.WellFormed) (href : d.isReference = true) :
    u.classForName d.binaryName = u.metadata.resolveDescriptor d := by
  ext t
  rw [resolveDescriptor_eq_some_iff h]
  cases d with
  | primitive type => cases href
  | object name =>
    have hname : ¬ Bracketed (dotted name) := by
      rw [bracketed_dotted_iff]
      exact Descriptor.not_bracketed_of_validName h.2
    rw [Descriptor.binaryName, classForName_of_not_bracketed hname]
    exact resolveWith_classHandle?_eq_some_iff (d := .object name)
  | array component =>
    have hrender : slashed (dotted (Descriptor.array component).render) =
        (Descriptor.array component).render := by
      rw [slashed_dotted, Descriptor.slashed_render h.2]
    have hbracket : Bracketed (dotted (Descriptor.array component).render) := by
      rw [bracketed_dotted_iff, Descriptor.bracketed_render_iff]
      exact ⟨component, rfl⟩
    rw [Descriptor.binaryName, classForName_bracketed_iff hbracket, hrender]
    constructor
    · rintro ⟨d', hd', heq, hknows, rfl⟩
      obtain rfl : d' = .array component := by
        have hparse := Descriptor.parse_eq_ok_iff.mpr ⟨hd', heq⟩
        rw [Descriptor.parse_eq_ok_iff.mpr ⟨h, rfl⟩] at hparse
        exact (Except.ok.inj hparse).symm
      exact ⟨hknows, rfl⟩
    · rintro ⟨hknows, rfl⟩
      exact ⟨_, h, rfl, hknows, rfl⟩

/-- A type that is found under the name of an array is one, and this is its name up to separators. -/
theorem array_of_classForName (hs : Bracketed s) (h : u.classForName s = some t) :
    (∃ component, t = .array component) ∧ t.binaryName = dotted s := by
  obtain ⟨d, hd, hrender, -, rfl⟩ := (classForName_bracketed_iff hs).mp h
  obtain ⟨component, rfl⟩ : ∃ component, d = .array component := by
    rw [← Descriptor.bracketed_render_iff, hrender, bracketed_slashed_iff]
    exact hs
  refine ⟨⟨_, rfl⟩, ?_⟩
  rw [TypeHandle.binaryName_ofDescriptor hd.2, Descriptor.binaryName, hrender, dotted_slashed]

theorem named_of_classForName (hs : ¬ Bracketed s) (h : u.classForName s = some t) :
    t = .named s := by
  rw [classForName_of_not_bracketed hs] at h
  exact (classHandle?_eq_some_iff.mp h).1

/--
The ways of naming a type agree, for every descriptor that can be read. It resolves to its handle if
its innermost type is primitive or a known class, and else not at all; the handle has its descriptor
and its binary name; and a reference type is found under its binary name as its descriptor is, so
that a type literal is the constant that a look-up of its name resolves to.
-/
theorem type_names_agree (u : Universe) {text : String} {d : Descriptor}
    (h : Descriptor.parse text = .ok d) :
    (u.Knows d → u.metadata.resolveDescriptor d = some (.ofDescriptor d)) ∧
    (¬ u.Knows d → u.metadata.resolveDescriptor d = none) ∧
    (TypeHandle.ofDescriptor d).descriptor = d.render ∧
    (TypeHandle.ofDescriptor d).binaryName = d.binaryName ∧
    (d.isReference = true →
      u.classForName d.binaryName = u.metadata.resolveDescriptor d ∧
      ∀ t, ConstantKind.typeLeaf? u.metadata (.ldc (.type d)) = some t ↔
        (ReflectiveCall.resolveClass u.metadata d.binaryName).outcome = .resolved (.type t)) := by
  obtain ⟨hd, -⟩ := Descriptor.parse_eq_ok_iff.mp h
  refine ⟨?_, ?_, TypeHandle.descriptor_ofDescriptor hd.2, TypeHandle.binaryName_ofDescriptor hd.2,
    ?_⟩
  · intro hknows
    exact (resolveDescriptor_eq_some_iff hd).mpr ⟨hknows, rfl⟩
  · intro hunknown
    rw [Option.eq_none_iff_forall_ne_some]
    intro t ht
    exact hunknown ((resolveDescriptor_eq_some_iff hd).mp ht).1
  · intro href
    have hname := classForName_binaryName (u := u) hd href
    refine ⟨hname, fun t => ?_⟩
    have hliteral : ConstantKind.typeLeaf? u.metadata (.ldc (.type d)) =
        u.metadata.resolveDescriptor d := by
      rw [ConstantKind.typeLeaf?, if_pos href]
    rw [hliteral, ← hname, ReflectiveCall.outcome_resolveClass_iff]
    rfl

/-- A class without supertypes or members. -/
def bareClass (name : String) : ClassInfo := ⟨name, .publicOnly, none, [], [], [], []⟩

/-- A universe of one class. -/
def childUniverse : Universe := ofList [bareClass "app.Child"]

theorem knows_child : childUniverse.Knows (.object "app/Child") :=
  .inr ⟨"app/Child", bareClass "app.Child", rfl, by decide⟩

/-- An array of arrays of the one known class, under all its names. -/
theorem type_names_agree_child :
    Descriptor.parse "[[Lapp/Child;" = .ok (.array (.array (.object "app/Child"))) ∧
      childUniverse.metadata.resolveDescriptor (.array (.array (.object "app/Child"))) =
        some (.array (.array (.named "app.Child"))) ∧
      childUniverse.classForName "[[Lapp.Child;" = some (.array (.array (.named "app.Child"))) := by
  have hparse : Descriptor.parse "[[Lapp/Child;" = .ok (.array (.array (.object "app/Child"))) :=
    Descriptor.parse_eq_ok_iff.mpr ⟨by decide, by decide⟩
  have hhandle : TypeHandle.ofDescriptor (.array (.array (.object "app/Child"))) =
      .array (.array (.named "app.Child")) := by decide
  have hbinary : Descriptor.binaryName (.array (.array (.object "app/Child"))) = "[[Lapp.Child;" := by
    decide
  obtain ⟨hresolves, -, -, -, hreference⟩ := childUniverse.type_names_agree hparse
  have hresolved := hresolves knows_child
  have hname := (hreference rfl).1
  rw [hresolved, hbinary] at hname
  rw [hhandle] at hresolved hname
  exact ⟨hparse, hresolved, hname⟩

/--
The names of a type that is found under some name. They are its binary name and, if it is an array,
every string that becomes its binary name when slashes are replaced by dots. So a type is found only
under its binary name but for arrays whose names are written with slashes.
-/
theorem classForName_spellings (u : Universe) {s : String} {t : TypeHandle}
    (h : u.classForName s = some t) :
    (∀ other, u.classForName other = some t ↔
      other = t.binaryName ∨
        (∃ component, t = .array component) ∧ dotted other = t.binaryName) ∧
    (s = t.binaryName ↔ ¬ (Bracketed s ∧ '/' ∈ s.toList)) := by
  by_cases hs : Bracketed s
  · obtain ⟨harray, hname⟩ := array_of_classForName hs h
    refine ⟨fun other => ⟨fun hother => ?_, fun hother => ?_⟩, ?_⟩
    · by_cases hbracket : Bracketed other
      · exact .inr ⟨harray, (array_of_classForName hbracket hother).2.symm⟩
      · obtain ⟨component, rfl⟩ := harray
        cases named_of_classForName hbracket hother
    · have hdotted : dotted other = dotted s := by
        rcases hother with heq | ⟨-, heq⟩
        · rw [heq, hname, ← dotted_slashed, slashed_dotted, dotted_slashed]
        · rw [heq, hname]
      rw [classForName_congr hs, h]
      rw [← slashed_dotted, hdotted, slashed_dotted]
    · rw [hname, eq_comm, dotted_eq_self_iff]
      exact ⟨fun hslash hboth => hslash hboth.2, fun hnot hslash => hnot ⟨hs, hslash⟩⟩
  · obtain rfl := named_of_classForName hs h
    refine ⟨fun other => ⟨fun hother => ?_, fun hother => ?_⟩, ?_⟩
    · by_cases hbracket : Bracketed other
      · obtain ⟨⟨component, harray⟩, -⟩ := array_of_classForName hbracket hother
        cases harray
      · have heq := named_of_classForName hbracket hother
        exact .inl (TypeHandle.named.inj heq).symm
    · rcases hother with rfl | ⟨⟨component, harray⟩, -⟩
      · exact h
      · cases harray
    · exact iff_of_true rfl fun hboth => hs hboth.1

theorem classForName_childArray {s : String} (hs : Bracketed s)
    (hslashed : slashed s = "[Lapp/Child;") :
    childUniverse.classForName s = some (.array (.named "app.Child")) := by
  refine (classForName_bracketed_iff hs).mpr ⟨.array (.object "app/Child"), by decide, ?_,
    knows_child, by decide⟩
  rw [hslashed]
  decide

theorem classForName_spellings_child :
    childUniverse.classForName "[Lapp/Child;" = some (.array (.named "app.Child")) ∧
      ∀ other, childUniverse.classForName other = some (.array (.named "app.Child")) ↔
        other = "[Lapp.Child;" ∨ dotted other = "[Lapp.Child;" := by
  have hfound : childUniverse.classForName "[Lapp/Child;" = some (.array (.named "app.Child")) :=
    classForName_childArray rfl (by decide)
  have hbinary : (TypeHandle.array (.named "app.Child")).binaryName = "[Lapp.Child;" := by decide
  refine ⟨hfound, fun other => ?_⟩
  have hspellings := (childUniverse.classForName_spellings hfound).1 other
  rw [hbinary] at hspellings
  simpa using hspellings

/--
A name that is not the binary name of the type that is found under it. A call that looks the class
up by this name is resolved to the type, although the name is not one that the type has.
-/
theorem classForName_accepts_slashes :
    childUniverse.classForName "[Lapp/Child;" = some (.array (.named "app.Child")) ∧
      (TypeHandle.array (.named "app.Child")).binaryName ≠ "[Lapp/Child;" ∧
      childUniverse.classForName "[Lapp.Child;" = some (.array (.named "app.Child")) ∧
      (ReflectiveCall.resolveClass childUniverse.metadata "[Lapp/Child;").outcome =
        .resolved (.type (.array (.named "app.Child"))) := by
  have hfound : childUniverse.classForName "[Lapp/Child;" = some (.array (.named "app.Child")) :=
    classForName_childArray rfl (by decide)
  refine ⟨hfound, by decide, classForName_childArray rfl (by decide), ?_⟩
  exact ReflectiveCall.outcome_resolveClass_iff.mpr hfound

end Universe

end CallFold
