import CallFold.Proofs.Overriding

/-!
# Single look-ups and bulk queries

A look-up searches the declarations for the one that it wants and stops there; a bulk query collects
them, leaves out what is not public, and of methods keeps the first with each name and parameter
types. The two agree: a look-up finds the first fitting member that the bulk query lists, and fails
if the query lists none (`lookup_first_listed`).

The three kinds of look-ups are the three kinds of `MemberRequest`. For each of them one equation
turns the look-up into a search of the list (`lookup_eq_find?`).
-/

namespace CallFold

/-- The parameter types of a member; a field takes none. -/
def Member.parameters : Member → List TypeHandle
  | field .. => []
  | method _ _ shape => shape.parameters
  | constructor _ parameters => parameters

/-- What the look-up of a single member asks for. -/
inductive MemberRequest where
  | field (name : String)
  | method (name : String) (parameters : List TypeHandle)
  | constructor (parameters : List TypeHandle)

namespace MemberRequest

/-- Whether a member is one that is asked for. -/
def fits : MemberRequest → Member → Bool
  | field name, m => m.name = name
  | method name parameters, m => m.name = name && m.parameters = parameters
  | constructor parameters, m => m.parameters = parameters

/-- The look-up, in a universe, among the members of a type. -/
def lookup (u : Universe) (owner : TypeHandle) (declaredOnly : Bool) :
    MemberRequest → Except LookupFailure Member
  | field name => u.lookupField owner name declaredOnly
  | method name parameters => u.lookupMethod owner name parameters declaredOnly
  | constructor parameters => u.lookupConstructor owner parameters declaredOnly

/-- The bulk query that lists all members of the kind. -/
def query (declaredOnly : Bool) : MemberRequest → MemberQuery
  | field _ => if declaredOnly then .declaredFields else .fields
  | method .. => if declaredOnly then .declaredMethods else .methods
  | constructor _ => if declaredOnly then .declaredConstructors else .constructors

/-- How the look-up fails. -/
def failure (owner : TypeHandle) : MemberRequest → LookupFailure
  | field name => .noSuchField owner.render name
  | method name parameters =>
    .noSuchMethod owner.render name (TypeHandle.renderList parameters)
  | constructor parameters => .noSuchConstructor owner.render (TypeHandle.renderList parameters)

theorem fits_field_iff {name : String} {m : Member} :
    (field name).fits m = true ↔ m.name = name := by
  unfold fits
  exact decide_eq_true_iff

theorem fits_method_iff {name : String} {parameters : List TypeHandle} {m : Member} :
    (method name parameters).fits m = true ↔ m.name = name ∧ m.parameters = parameters := by
  unfold fits
  simp only [Bool.and_eq_true, decide_eq_true_iff]

theorem fits_constructor_iff {parameters : List TypeHandle} {m : Member} :
    (constructor parameters).fits m = true ↔ m.parameters = parameters := by
  unfold fits
  exact decide_eq_true_iff

end MemberRequest

namespace Universe

variable {α : Type}

/-! ## Searching a list of declarations -/

theorem find?_map_members {declared : List α} {member : α → Member} {fits : Member → Bool}
    {wanted : α → Bool} (h : ∀ d, fits (member d) = true ↔ wanted d = true) :
    (declared.map member).find? fits = (declared.find? wanted).map member := by
  rw [List.find?_map]
  congr 2
  funext d
  exact Bool.eq_iff_iff.mpr (h d)

/-- To list what is visible and search the list is to search for what is wanted and visible. -/
theorem find?_map_filter_members {declared : List α} {member : α → Member} {fits : Member → Bool}
    {wanted visible : α → Bool} (h : ∀ d, fits (member d) = true ↔ wanted d = true) :
    ((declared.filter visible).map member).find? fits =
      (declared.find? fun d => wanted d && visible d).map member := by
  rw [find?_map_members h, List.find?_filter]
  congr 2
  funext d
  simp [Bool.and_comm]

/-- A search of what the class behind a handle declares, if there is one. -/
theorem find?_own {own : Option ClassInfo} {list : ClassInfo → List Member}
    {search : ClassInfo → Option Member} {fits : Member → Bool}
    (h : ∀ c, (list c).find? fits = search c) :
    ((own.map list).getD []).find? fits = own.bind search := by
  cases own with
  | none => rfl
  | some c => exact h c

/-! ## Methods with the same key -/

/-- The first method with a key is kept, so a search by key is not disturbed by what is dropped. -/
theorem find?_keepFirst {seen : List (String × List TypeHandle)}
    {methods : List (ClassInfo × MethodInfo)} {key : String × List TypeHandle} (h : key ∉ seen) :
    (keepFirst seen methods).find? (fun p => methodKey p.2 = key) =
      methods.find? fun p => methodKey p.2 = key := by
  induction methods generalizing seen with
  | nil => rfl
  | cons p rest ih =>
    obtain ⟨c, m⟩ := p
    rw [keepFirst]
    by_cases hkey : methodKey m = key
    · subst hkey
      rw [if_neg h]
      simp
    · by_cases hseen : methodKey m ∈ seen
      · rw [if_pos hseen, ih h, List.find?_cons_of_neg (by simpa using hkey)]
      · have hkey' : key ∉ methodKey m :: seen := by
          intro hmem
          rcases List.mem_cons.mp hmem with heq | hmem
          · exact hkey heq.symm
          · exact h hmem
        rw [if_neg hseen, List.find?_cons_of_neg (by simpa using hkey),
          List.find?_cons_of_neg (by simpa using hkey), ih hkey']

/-- No two of the methods that are kept have the same key. -/
theorem nodup_keepFirst (seen : List (String × List TypeHandle))
    (methods : List (ClassInfo × MethodInfo)) :
    ((keepFirst seen methods).map fun p => methodKey p.2).Nodup := by
  induction methods generalizing seen with
  | nil => exact List.nodup_nil
  | cons p rest ih =>
    obtain ⟨c, m⟩ := p
    rw [keepFirst]
    by_cases hseen : methodKey m ∈ seen
    · rw [if_pos hseen]
      exact ih seen
    · rw [if_neg hseen, List.map_cons, List.nodup_cons]
      refine ⟨?_, ih _⟩
      intro hmem
      obtain ⟨q, hq, hkey⟩ := List.mem_map.mp hmem
      have hnew := (mem_keepFirst_iff.mp hq).1
      rw [hkey] at hnew
      exact hnew List.mem_cons_self

/-! ## Look-ups as searches of the list -/

variable (u : Universe) (owner : TypeHandle)

theorem lookupField_eq_find? (name : String) (declaredOnly : Bool) :
    u.lookupField owner name declaredOnly =
      foundOr (.noSuchField owner.render name)
        ((u.members owner ((MemberRequest.field name).query declaredOnly)).find?
          (MemberRequest.field name).fits) := by
  have hfits (c : ClassInfo) (f : FieldInfo) :
      (MemberRequest.field name).fits (c.fieldMember f) = true ↔ decide (f.name = name) = true := by
    rw [MemberRequest.fits_field_iff, decide_eq_true_iff]
    rfl
  unfold lookupField
  congr 1
  cases declaredOnly with
  | true => exact (find?_own fun c => find?_map_members (hfits c)).symm
  | false =>
    show (u.fieldSources owner).findSome? _ = ((u.fieldSources owner).flatMap _).find? _
    rw [List.find?_flatMap]
    congr 1
    funext c
    exact (find?_map_filter_members (hfits c)).symm

theorem lookupMethod_eq_find? (name : String) (parameters : List TypeHandle)
    (declaredOnly : Bool) :
    u.lookupMethod owner name parameters declaredOnly =
      foundOr (.noSuchMethod owner.render name (TypeHandle.renderList parameters))
        ((u.members owner ((MemberRequest.method name parameters).query declaredOnly)).find?
          (MemberRequest.method name parameters).fits) := by
  cases declaredOnly with
  | true =>
    unfold lookupMethod
    dsimp only
    congr 1
    refine (find?_own fun c => find?_map_members fun m => ?_).symm
    rw [MemberRequest.fits_method_iff, Bool.and_eq_true, decide_eq_true_iff, decide_eq_true_iff]
    rfl
  | false =>
    have hfits (p : ClassInfo × MethodInfo) :
        (MemberRequest.method name parameters).fits (p.1.methodMember p.2) = true ↔
          decide (methodKey p.2 = (name, parameters)) = true := by
      rw [MemberRequest.fits_method_iff, decide_eq_true_iff, methodKey, Prod.mk.injEq]
      rfl
    rw [lookupMethod_public, ← find?_publicMethods, ← find?_keepFirst List.not_mem_nil]
    congr 1
    exact (find?_map_members hfits).symm

theorem lookupConstructor_eq_find? (parameters : List TypeHandle) (declaredOnly : Bool) :
    u.lookupConstructor owner parameters declaredOnly =
      foundOr (.noSuchConstructor owner.render (TypeHandle.renderList parameters))
        ((u.members owner ((MemberRequest.constructor parameters).query declaredOnly)).find?
          (MemberRequest.constructor parameters).fits) := by
  have hfits (c : ClassInfo) (k : ConstructorInfo) :
      (MemberRequest.constructor parameters).fits (c.constructorMember k) = true ↔
        decide (k.parameters = parameters) = true := by
    rw [MemberRequest.fits_constructor_iff, decide_eq_true_iff]
    rfl
  unfold lookupConstructor
  congr 1
  cases declaredOnly with
  | true =>
    simp only [Bool.true_or, Bool.and_true]
    exact (find?_own fun c => find?_map_members (hfits c)).symm
  | false =>
    simp only [Bool.false_or]
    exact (find?_own fun c => find?_map_filter_members (hfits c)).symm

/-- A look-up searches what the bulk query of its kind lists. -/
theorem lookup_eq_find? (request : MemberRequest) (declaredOnly : Bool) :
    request.lookup u owner declaredOnly =
      foundOr (request.failure owner)
        ((u.members owner (request.query declaredOnly)).find? request.fits) := by
  cases request with
  | field name => exact u.lookupField_eq_find? owner name declaredOnly
  | method name parameters => exact u.lookupMethod_eq_find? owner name parameters declaredOnly
  | constructor parameters => exact u.lookupConstructor_eq_find? owner parameters declaredOnly

theorem foundOr_eq_error_iff {failure : LookupFailure} {found : Option Member} :
    foundOr failure found = .error failure ↔ found = none := by
  cases found <;> simp [foundOr]

/-- A bulk query for public methods lists no two methods of one name and one list of parameters. -/
theorem nodup_members_methods :
    ((u.members owner .methods).map fun m => (m.name, m.parameters)).Nodup := by
  have hkeys : ((u.members owner .methods).map fun m => (m.name, m.parameters)) =
      (keepFirst [] (publicMethods (u.methodSources owner))).map fun p => methodKey p.2 := by
    rw [members, List.map_map]
    rfl
  rw [hkeys]
  exact nodup_keepFirst [] _

/--
Look-ups of single members agree with bulk queries. A look-up finds the first member of the list
that fits, and fails exactly if there is none. A list of public methods has no two methods that a
look-up could not tell apart.
-/
theorem lookup_first_listed :
    (∀ (request : MemberRequest) (declaredOnly : Bool),
      (∀ m, request.lookup u owner declaredOnly = .ok m ↔
        ∃ pre post, u.members owner (request.query declaredOnly) = pre ++ m :: post ∧
          request.fits m = true ∧ ∀ b ∈ pre, request.fits b = false) ∧
      (request.lookup u owner declaredOnly = .error (request.failure owner) ↔
        ∀ m ∈ u.members owner (request.query declaredOnly), request.fits m = false)) ∧
    ((u.members owner .methods).map fun m => (m.name, m.parameters)).Nodup := by
  refine ⟨?_, u.nodup_members_methods owner⟩
  intro request declaredOnly
  rw [lookup_eq_find?]
  constructor
  · intro m
    rw [foundOr_eq_ok_iff, List.find?_eq_some_iff_append]
    simp only [Bool.not_eq_true']
    constructor
    · rintro ⟨hfits, pre, post, hsplit, hpre⟩
      exact ⟨pre, post, hsplit, hfits, hpre⟩
    · rintro ⟨pre, post, hsplit, hfits, hpre⟩
      exact ⟨hfits, pre, post, hsplit, hpre⟩
  · rw [foundOr_eq_error_iff, List.find?_eq_none]
    simp only [Bool.not_eq_true]

end Universe

end CallFold
