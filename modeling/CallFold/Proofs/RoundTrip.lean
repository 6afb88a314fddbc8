import CallFold.Descriptor.Parse

/-!
# Reading and printing descriptors

A text is read as a descriptor exactly if it is the printed form of that descriptor and the
descriptor is well formed. The statement for the reader that takes one field type from the front of
a text and returns what is left (`Descriptor.parseFront_eq_ok_iff`) says that the grammar is
unambiguous: whatever follows a field type, the reader stops where its printed form ends. The loop
over the parameters of a method needs no more than that.
-/

namespace CallFold

theorem exists_error_iff {ε α : Type} {x : Except ε α} :
    (∃ e, x = .error e) ↔ ∀ a, x ≠ .ok a := by
  cases x <;> simp

theorem ofList_eq_iff {cs : List Char} {s : String} : String.ofList cs = s ↔ s.toList = cs := by
  rw [eq_comm, String.ext_iff, String.toList_ofList]

namespace Descriptor

variable {d : Descriptor} {input text rest : List Char}

/-! ## Brackets -/

theorem isBracket_eq_true_iff {c : Char} : isBracket c = true ↔ c = '[' := decide_eq_true_iff

theorem nest_dimensions_element (d : Descriptor) : nest d.dimensions d.element = d := by
  induction d with
  | primitive type => rfl
  | object name => rfl
  | array component ih => exact congrArg array ih

theorem dimensions_element (d : Descriptor) : d.element.dimensions = 0 := by
  induction d with
  | primitive type => rfl
  | object name => rfl
  | array component ih => exact ih

theorem validElement_element_iff : d.element.ValidElement ↔ d.ValidElement := by
  induction d with
  | primitive type => rfl
  | object name => rfl
  | array component ih => exact ih

theorem dimensions_nest (n : Nat) (d : Descriptor) :
    (nest n d).dimensions = n + d.dimensions := by
  induction n with
  | zero => exact (Nat.zero_add _).symm
  | succ n ih =>
    rw [nest, dimensions, ih]
    omega

theorem validElement_nest_iff {n : Nat} : (nest n d).ValidElement ↔ d.ValidElement := by
  induction n with
  | zero => rfl
  | succ n ih => exact ih

theorem chars_nest (n : Nat) (d : Descriptor) :
    (nest n d).chars = List.replicate n '[' ++ d.chars := by
  induction n with
  | zero => rfl
  | succ n ih => rw [nest, chars, ih, List.replicate_succ, List.cons_append]

theorem takeWhile_isBracket (text : List Char) :
    text.takeWhile isBracket = List.replicate (text.takeWhile isBracket).length '[' := by
  refine List.eq_replicate_of_mem fun c hc => ?_
  have hall := List.all_takeWhile (l := text) (p := isBracket)
  exact isBracket_eq_true_iff.mp (List.all_eq_true.mp hall c hc)

/-! ## A field type without brackets -/

/-- A class name is read up to the semicolon that the printed form puts after it. -/
theorem parseElement_object {name : String} (h : ValidName name) :
    parseElement input ('L' :: (name.toList ++ ';' :: rest)) = .ok (object name, rest) := by
  obtain ⟨hne, hchars⟩ := h
  have hname : ∀ c ∈ name.toList, isNameChar c = true := by
    intro c hc
    simpa [isNameChar] using (hchars c hc).2
  have hsemicolon : isNameChar ';' = false := rfl
  have hdrop : (name.toList ++ ';' :: rest).dropWhile isNameChar = ';' :: rest := by
    rw [List.dropWhile_append_of_pos hname, List.dropWhile_cons_of_neg (by simp [hsemicolon])]
  have htake : (name.toList ++ ';' :: rest).takeWhile isNameChar = name.toList := by
    rw [List.takeWhile_append_of_pos hname, List.takeWhile_cons_of_neg (by simp [hsemicolon]),
      List.append_nil]
  have hbanned : (name.toList.isEmpty || name.toList.any bannedInName) = false := by
    rw [Bool.or_eq_false_iff, List.isEmpty_eq_false_iff, List.any_eq_false]
    exact ⟨hne, fun c hc => Bool.eq_false_iff.mp (hchars c hc).1⟩
  rw [parseElement, hdrop]
  dsimp only
  rw [htake, hbanned, String.ofList_toList]
  rfl

theorem parseElement_primitive {type : Primitive} (h : type ≠ .void) :
    parseElement input (type.symbol :: rest) = .ok (primitive type, rest) := by
  cases type with
  | void => exact absurd rfl h
  | _ => rfl

/-- What is read as a class name ends with a semicolon and is a valid name. -/
theorem exists_name_of_parseElement (h : parseElement input ('L' :: text) = .ok (d, rest)) :
    ∃ name, d = object name ∧ ValidName name ∧ text = name.toList ++ ';' :: rest := by
  rw [parseElement] at h
  split at h
  · simp at h
  · next c rest' hdrop =>
    dsimp only at h
    split at h
    · simp at h
    · next hbanned =>
      obtain ⟨rfl, rfl⟩ := Prod.mk.inj (Except.ok.inj h)
      rw [Bool.not_eq_true, Bool.or_eq_false_iff, List.isEmpty_eq_false_iff,
        List.any_eq_false] at hbanned
      have hall := List.all_eq_true.mp (List.all_takeWhile (l := text) (p := isNameChar))
      have hsemicolon : c = ';' := by
        have hstop := List.head?_dropWhile_not isNameChar text
        rw [hdrop] at hstop
        simpa [isNameChar] using hstop
      refine ⟨_, rfl, ⟨?_, fun c' hc' => ?_⟩, ?_⟩
      · rw [String.toList_ofList]
        exact hbanned.1
      · rw [String.toList_ofList] at hc'
        refine ⟨Bool.eq_false_iff.mpr (hbanned.2 c' hc'), ?_⟩
        simpa [isNameChar] using hall c' hc'
      · rw [String.toList_ofList, ← hsemicolon, ← hdrop, List.takeWhile_append_dropWhile]

/-- What is read as a field type without brackets is the printed form of a valid one. -/
theorem valid_of_parseElement (h : parseElement input text = .ok (d, rest)) :
    d.dimensions = 0 ∧ d.ValidElement ∧ text = d.chars ++ rest := by
  cases text with
  | nil => simp [parseElement] at h
  | cons c text =>
    by_cases hc : c = 'L'
    · subst hc
      obtain ⟨name, rfl, hvalid, rfl⟩ := exists_name_of_parseElement h
      refine ⟨rfl, hvalid, ?_⟩
      rw [chars, List.cons_append, List.append_assoc]
      rfl
    · rw [parseElement] at h
      · split at h
        · simp at h
        · next type hvoid hsymbol =>
          obtain ⟨rfl, rfl⟩ := Prod.mk.inj (Except.ok.inj h)
          refine ⟨rfl, hvoid, ?_⟩
          rw [Primitive.ofSymbol?_eq_some_iff.mp hsymbol]
          rfl
        · simp at h
      · exact hc

theorem parseElement_chars (hflat : d.dimensions = 0) (hvalid : d.ValidElement) :
    parseElement input (d.chars ++ rest) = .ok (d, rest) := by
  cases d with
  | primitive type => exact parseElement_primitive hvalid
  | object name =>
    rw [chars, List.cons_append, List.append_assoc]
    exact parseElement_object hvalid
  | array component => simp [dimensions] at hflat

/-! ## A field type in front of a text -/

/-- The printed form starts with a bracket, an `L` or the symbol of a primitive type. -/
theorem exists_chars_cons (d : Descriptor) :
    ∃ c tail, d.chars = c :: tail ∧ c ≠ ')' ∧ (d.dimensions = 0 → isBracket c = false) := by
  cases d with
  | primitive type =>
    refine ⟨type.symbol, [], rfl, ?_, fun _ => ?_⟩
    · cases type <;> decide
    · cases type <;> decide
  | object name => exact ⟨'L', _, rfl, by decide, fun _ => rfl⟩
  | array component =>
    refine ⟨'[', _, rfl, by decide, fun hflat => ?_⟩
    simp [dimensions] at hflat

/-- The brackets of a printed form are those in front of its innermost type. -/
theorem span_isBracket_chars (d : Descriptor) (rest : List Char) :
    (d.chars ++ rest).takeWhile isBracket = List.replicate d.dimensions '[' ∧
      (d.chars ++ rest).dropWhile isBracket = d.element.chars ++ rest := by
  have hchars : d.chars ++ rest =
      List.replicate d.dimensions '[' ++ (d.element.chars ++ rest) := by
    rw [← List.append_assoc, ← chars_nest, nest_dimensions_element]
  have hbrackets : ∀ c ∈ List.replicate d.dimensions '[', isBracket c = true := fun c hc =>
    isBracket_eq_true_iff.mpr (List.eq_of_mem_replicate hc)
  obtain ⟨c, tail, helement, -, hstop⟩ := exists_chars_cons d.element
  have hc : ¬ isBracket c = true := by
    rw [hstop (dimensions_element d)]
    exact Bool.false_ne_true
  rw [hchars, helement, List.cons_append]
  constructor
  · rw [List.takeWhile_append_of_pos hbrackets, List.takeWhile_cons_of_neg hc, List.append_nil]
  · rw [List.dropWhile_append_of_pos hbrackets, List.dropWhile_cons_of_neg hc]

/-- A text is read from the front exactly as far as the printed form of a well-formed type. -/
theorem parseFront_eq_ok_iff :
    parseFront text = .ok (d, rest) ↔ d.WellFormed ∧ text = d.chars ++ rest := by
  constructor
  · intro h
    rw [parseFront] at h
    split at h
    · simp at h
    · next hdimensions =>
      split at h
      · simp at h
      · next element rest' helement =>
        obtain ⟨rfl, rfl⟩ := Prod.mk.inj (Except.ok.inj h)
        obtain ⟨hflat, hvalid, htext⟩ := valid_of_parseElement helement
        refine ⟨⟨?_, validElement_nest_iff.mpr hvalid⟩, ?_⟩
        · rw [dimensions_nest, hflat]
          omega
        · rw [chars_nest, ← takeWhile_isBracket, List.append_assoc, ← htext,
            List.takeWhile_append_dropWhile]
  · rintro ⟨⟨hdimensions, hvalid⟩, rfl⟩
    obtain ⟨htake, hdrop⟩ := span_isBracket_chars d rest
    rw [parseFront, htake, hdrop, List.length_replicate]
    rw [if_neg (Nat.not_lt.mpr hdimensions),
      parseElement_chars (dimensions_element d) (validElement_element_iff.mpr hvalid)]
    dsimp only
    rw [nest_dimensions_element]

theorem render_eq_iff {s : String} : d.render = s ↔ s.toList = d.chars := ofList_eq_iff

theorem parse_eq_ok_iff {s : String} : parse s = .ok d ↔ d.WellFormed ∧ d.render = s := by
  have hfront : parse s = .ok d ↔ parseFront s.toList = .ok (d, []) := by
    rw [parse]
    split
    · next h => simp [h]
    · next h => simp [h]
    · next rest hrest h =>
      have hne : rest ≠ [] := fun hnil => hrest hnil
      simp [h, hne]
  rw [hfront, parseFront_eq_ok_iff, render_eq_iff, List.append_nil]

/-- A well-formed type in terms of its innermost type. -/
theorem wellFormed_iff : d.WellFormed ↔ d.dimensions ≤ 255 ∧
    ((∃ type, d.element = primitive type ∧ type ≠ .void) ∨
      ∃ name, d.element = object name ∧ name ≠ "" ∧
        ∀ c ∈ ['.', '[', '(', ')', ';'], c ∉ name.toList) := by
  refine and_congr_right fun _ => ?_
  rw [← validElement_element_iff]
  cases helement : d.element with
  | primitive type => simp [ValidElement]
  | object name =>
    have hchars : (∀ c ∈ name.toList, bannedInName c = false ∧ c ≠ ';') ↔
        ∀ c ∈ ['.', '[', '(', ')', ';'], c ∉ name.toList := by
      constructor
      · intro h c hc hmem
        have hbanned := h c hmem
        simp only [List.mem_cons, List.not_mem_nil, or_false] at hc
        rcases hc with rfl | rfl | rfl | rfl | rfl <;> simp [bannedInName] at hbanned
      · intro h c hmem
        have hne : ∀ c' ∈ ['.', '[', '(', ')', ';'], c ≠ c' := fun c' hc' heq =>
          h c' hc' (heq ▸ hmem)
        simpa [bannedInName, and_assoc] using hne
    simp [ValidElement, ValidName, hchars]
  | array component =>
    have hflat := dimensions_element d
    rw [helement] at hflat
    simp [dimensions] at hflat

/-! ## Deciding whether a descriptor is well formed -/

theorem validName_iff {name : String} : ValidName name ↔ name.toList.isEmpty = false ∧
    (name.toList.all fun c => !bannedInName c && c ≠ ';') = true := by
  simp [ValidName, List.all_eq_true]

instance (name : String) : Decidable (ValidName name) := decidable_of_iff _ validName_iff.symm

def decidableValidElement : (d : Descriptor) → Decidable d.ValidElement
  | primitive type => inferInstanceAs (Decidable (type ≠ .void))
  | object name => inferInstanceAs (Decidable (ValidName name))
  | array component => decidableValidElement component

instance : DecidablePred ValidElement := decidableValidElement

instance : DecidablePred WellFormed := fun d =>
  inferInstanceAs (Decidable (d.dimensions ≤ maxDimensions ∧ d.ValidElement))

end Descriptor

namespace MethodDescriptor

instance : DecidablePred WellFormed := fun d =>
  inferInstanceAs (Decidable ((∀ p ∈ d.parameters, p.WellFormed) ∧ ∀ r ∈ d.result, r.WellFormed))

variable {descriptor : String} {ds : List Descriptor} {text rest : List Char}

/-! ## Method shapes -/

/-- The printed form of a result. -/
def resultChars : Option Descriptor → List Char
  | some type => type.chars
  | none => [Primitive.void.symbol]

theorem chars_eq (m : MethodDescriptor) :
    m.chars = '(' :: (m.parameters.flatMap Descriptor.chars ++ ')' :: resultChars m.result) := by
  rw [chars]
  cases m.result <;> rfl

/-- What is read as parameters is what their printed forms and a closing parenthesis make up. -/
theorem wellFormed_of_parseParameters (h : parseParameters descriptor text = .ok (ds, rest)) :
    (∀ d ∈ ds, d.WellFormed) ∧ text = ds.flatMap Descriptor.chars ++ ')' :: rest := by
  fun_induction parseParameters descriptor text generalizing ds with
  | case1 => simp at h
  | case2 rest' =>
    obtain ⟨rfl, rfl⟩ := Prod.mk.inj (Except.ok.inj h)
    exact ⟨fun d hd => absurd hd List.not_mem_nil, rfl⟩
  | case3 => simp at h
  | case4 => simp at h
  | case5 c text hc d after hfront ds' after' hrest ih =>
    obtain ⟨rfl, rfl⟩ := Prod.mk.inj (Except.ok.inj h)
    obtain ⟨hd, htext⟩ := Descriptor.parseFront_eq_ok_iff.mp hfront
    obtain ⟨hds, hafter⟩ := ih hrest
    refine ⟨List.forall_mem_cons.mpr ⟨hd, hds⟩, ?_⟩
    rw [htext, hafter, List.flatMap_cons, List.append_assoc]

theorem parseParameters_flatMap_chars (h : ∀ d ∈ ds, d.WellFormed) :
    parseParameters descriptor (ds.flatMap Descriptor.chars ++ ')' :: rest) = .ok (ds, rest) := by
  induction ds with
  | nil => rw [List.flatMap_nil, List.nil_append, parseParameters]
  | cons d ds ih =>
    obtain ⟨hd, hds⟩ := List.forall_mem_cons.mp h
    rw [List.flatMap_cons, List.append_assoc]
    have hfront := Descriptor.parseFront_eq_ok_iff.mpr
      ⟨hd, Eq.refl (d.chars ++ (ds.flatMap Descriptor.chars ++ ')' :: rest))⟩
    obtain ⟨c, tail, hchars, hc, -⟩ := d.exists_chars_cons
    rw [hchars, List.cons_append] at hfront ⊢
    rw [parseParameters]
    · split
      · next e herror =>
        rw [hfront] at herror
        cases herror
      · next d' after hok =>
        obtain ⟨rfl, rfl⟩ := Prod.mk.inj (Except.ok.inj (hfront.symm.trans hok))
        rw [ih hds]
    · exact hc

theorem parseResult_eq_ok_iff {r : Option Descriptor} :
    parseResult text = .ok r ↔ (∀ d ∈ r, d.WellFormed) ∧ text = resultChars r := by
  rw [parseResult]
  by_cases hvoid : text = [Primitive.void.symbol]
  · rw [if_pos hvoid]
    subst hvoid
    cases r with
    | none => simp [resultChars]
    | some d =>
      -- no field type is printed like the missing result
      refine iff_of_false (by simp) fun ⟨hd, htext⟩ => ?_
      have hfront := Descriptor.parseFront_eq_ok_iff.mpr
        ⟨hd d rfl, htext.trans (List.append_nil _).symm⟩
      cases hfront
  · rw [if_neg hvoid]
    cases r with
    | none =>
      refine iff_of_false (fun h => ?_) fun h => hvoid h.2
      cases hparse : Descriptor.parse (String.ofList text) with
      | error e => simp [hparse, Except.map] at h
      | ok d => simp [hparse, Except.map] at h
    | some d =>
      have hparse : (Descriptor.parse (String.ofList text)).map some = .ok (some d) ↔
          Descriptor.parse (String.ofList text) = .ok d := by
        cases Descriptor.parse (String.ofList text) <;> simp [Except.map]
      rw [hparse, Descriptor.parse_eq_ok_iff, Descriptor.render_eq_iff, String.toList_ofList]
      simp [resultChars]

theorem wellFormed_of_parse {s : String} {m : MethodDescriptor} (h : parse s = .ok m) :
    m.WellFormed ∧ m.render = s := by
  rw [parse] at h
  split at h
  · next text htext =>
    split at h
    · simp at h
    · next parameters rest hparameters =>
      split at h
      · simp at h
      · next result hresult =>
        obtain rfl := Except.ok.inj h
        obtain ⟨hforall, rfl⟩ := wellFormed_of_parseParameters hparameters
        obtain ⟨hforall', rfl⟩ := parseResult_eq_ok_iff.mp hresult
        refine ⟨⟨hforall, hforall'⟩, ?_⟩
        rw [render, ofList_eq_iff, htext, chars_eq]
  · simp at h

theorem parse_render {m : MethodDescriptor} (h : m.WellFormed) : parse m.render = .ok m := by
  obtain ⟨hparameters, hresult⟩ := h
  have htext : m.render.toList =
      '(' :: (m.parameters.flatMap Descriptor.chars ++ ')' :: resultChars m.result) := by
    rw [render, String.toList_ofList, chars_eq]
  rw [parse]
  split
  · next text heq =>
    obtain rfl := (List.cons.inj (htext.symm.trans heq)).2
    rw [parseParameters_flatMap_chars hparameters]
    dsimp only
    rw [parseResult_eq_ok_iff.mpr ⟨hresult, rfl⟩]
  · next hno => exact absurd htext (hno _)

theorem parse_eq_ok_iff {s : String} {m : MethodDescriptor} :
    parse s = .ok m ↔ m.WellFormed ∧ m.render = s :=
  ⟨wellFormed_of_parse, fun ⟨h, hs⟩ => hs ▸ parse_render h⟩

end MethodDescriptor

/--
The readers accept exactly the printed forms of well-formed descriptors, and read each as the
descriptor that is printed so. Every other text is refused.
-/
theorem parse_accepts_exactly_rendered :
    (∀ (s : String) (d : Descriptor), Descriptor.parse s = .ok d ↔ d.WellFormed ∧ d.render = s) ∧
      (∀ (s : String) (m : MethodDescriptor),
        MethodDescriptor.parse s = .ok m ↔ m.WellFormed ∧ m.render = s) ∧
      (∀ s : String, (∃ e, Descriptor.parse s = .error e) ↔
        ∀ d : Descriptor, d.WellFormed → d.render ≠ s) ∧
      (∀ s : String, (∃ e, MethodDescriptor.parse s = .error e) ↔
        ∀ m : MethodDescriptor, m.WellFormed → m.render ≠ s) ∧
      ∀ d : Descriptor, d.WellFormed ↔ d.dimensions ≤ 255 ∧
        ((∃ type, d.element = .primitive type ∧ type ≠ .void) ∨
          ∃ name, d.element = .object name ∧ name ≠ "" ∧
            ∀ c ∈ ['.', '[', '(', ')', ';'], c ∉ name.toList) := by
  refine ⟨fun s d => Descriptor.parse_eq_ok_iff, fun s m => MethodDescriptor.parse_eq_ok_iff,
    fun s => ?_, fun s => ?_, fun d => Descriptor.wellFormed_iff⟩
  · rw [exists_error_iff]
    refine forall_congr' fun d => ?_
    rw [ne_eq, Descriptor.parse_eq_ok_iff, not_and]
  · rw [exists_error_iff]
    refine forall_congr' fun m => ?_
    rw [ne_eq, MethodDescriptor.parse_eq_ok_iff, not_and]

end CallFold
