import CallFold.Proofs.Hierarchy
import CallFold.Universe.Lookup
import Mathlib

/-!
# Overridden methods

A look-up of a public method takes the first declaration on the walk up the hierarchy, and a bulk
query lists what such look-ups find. Is a declaration that is overridden lower in the hierarchy
hidden by this? Only as far as the walk lists subtypes first, which it need not do: it visits a
class after one of its direct subtypes, not after all of them.

* `mem_members_methods_iff`: a bulk query lists exactly the methods that look-ups find.
* `overridden_methods_hidden`: a method that is found is not overridden along some chain that leads
  to its class. It is not overridden at all if the walk lists every class after its subtypes, and
  where the walk does not, there are declarations with which an overridden method is found.
* `overridden_methods_found`: two ways in which an acyclic hierarchy gets there.
-/

namespace CallFold

namespace Universe

/-! ## First declarations -/

/-- The first public method of a class with a key. -/
def publicMethod? (key : String × List TypeHandle) (c : ClassInfo) : Option MethodInfo :=
  c.methods.find? fun m => methodKey m = key && m.flags.isPublic

/-- A name stands for a known class that declares a public method with a key. -/
def Declares (u : Universe) (name : String) (key : String × List TypeHandle) : Prop :=
  ∃ c, u.class? name = some c ∧ ∃ m ∈ c.methods, methodKey m = key ∧ m.flags.isPublic

theorem publicMethod?_ne_none_iff {key : String × List TypeHandle} {c : ClassInfo} :
    publicMethod? key c ≠ none ↔ ∃ m ∈ c.methods, methodKey m = key ∧ m.flags.isPublic := by
  simp [publicMethod?]

/-- A look-up takes the first declaration among the classes above. -/
theorem lookupMethod_public (u : Universe) (owner : TypeHandle) (name : String)
    (parameters : List TypeHandle) :
    u.lookupMethod owner name parameters false =
      foundOr (.noSuchMethod owner.render name (TypeHandle.renderList parameters))
        ((u.methodSources owner).findSome? fun c =>
          (publicMethod? (name, parameters) c).map c.methodMember) := by
  simp only [lookupMethod, publicMethod?, methodKey, Prod.mk.injEq, Bool.decide_and]
  rfl

theorem foundOr_eq_ok_iff {failure : LookupFailure} {found : Option Member} {member : Member} :
    foundOr failure found = .ok member ↔ found = some member := by
  cases found <;> simp [foundOr]

/-- What a look-up finds, with the classes that come before. -/
theorem lookupMethod_eq_ok_iff {u : Universe} {owner name : String}
    {parameters : List TypeHandle} {member : Member} :
    u.lookupMethod (.named owner) name parameters false = .ok member ↔
      ∃ pre c post, u.ancestors owner = pre ++ c :: post ∧
        (∃ m, publicMethod? (name, parameters) c = some m ∧ c.methodMember m = member) ∧
        ∀ b ∈ pre, publicMethod? (name, parameters) b = none := by
  rw [lookupMethod_public, foundOr_eq_ok_iff, methodSources, List.findSome?_eq_some_iff]
  simp only [Option.map_eq_some_iff, Option.map_eq_none_iff]

/-! ## Bulk queries -/

theorem find?_publicMethods (sources : List ClassInfo) (key : String × List TypeHandle) :
    ((publicMethods sources).find? fun p => methodKey p.2 = key).map
        (fun p => p.1.methodMember p.2) =
      sources.findSome? fun c => (publicMethod? key c).map c.methodMember := by
  induction sources with
  | nil => rfl
  | cons c rest ih =>
    have hown : (((c.methods.filter fun m => m.flags.isPublic).map (c, ·)).find?
        fun p => methodKey p.2 = key) = (publicMethod? key c).map (c, ·) := by
      rw [List.find?_map, List.find?_filter, publicMethod?]
      congr 2
      funext m
      simp [Bool.and_comm]
    rw [publicMethods, List.flatMap_cons, List.find?_append, hown, List.findSome?_cons]
    cases publicMethod? key c with
    | some m => rfl
    | none => exact ih

/-- The first method with its key is kept, unless the key was seen before. -/
theorem mem_keepFirst_iff {seen : List (String × List TypeHandle)}
    {methods : List (ClassInfo × MethodInfo)} {p : ClassInfo × MethodInfo} :
    p ∈ keepFirst seen methods ↔
      methodKey p.2 ∉ seen ∧
        methods.find? (fun q => methodKey q.2 = methodKey p.2) = some p := by
  induction methods generalizing seen with
  | nil => simp [keepFirst]
  | cons q rest ih =>
    obtain ⟨c, m⟩ := q
    rw [keepFirst, List.find?_cons]
    by_cases hkey : methodKey m = methodKey p.2
    · by_cases hseen : methodKey m ∈ seen
      · rw [if_pos hseen, ih]
        simp [hkey ▸ hseen]
      · rw [if_neg hseen, List.mem_cons, ih]
        simp [hkey ▸ hseen, hkey, eq_comm]
    · have hne : p ≠ (c, m) := by
        rintro rfl
        exact hkey rfl
      by_cases hseen : methodKey m ∈ seen
      · rw [if_pos hseen, ih]
        simp [hkey]
      · rw [if_neg hseen, List.mem_cons, ih]
        simp [hkey, hne, Ne.symm hkey]

theorem methodKey_of_methodMember {c : ClassInfo} {m : MethodInfo} {declaring : TypeHandle}
    {name : String} {shape : MethodShape} (h : c.methodMember m = .method declaring name shape) :
    methodKey m = (name, shape.parameters) := by
  cases h
  rfl

/-- A bulk query lists exactly the methods that look-ups find. -/
theorem mem_members_methods_iff {u : Universe} {owner declaring : TypeHandle} {name : String}
    {shape : MethodShape} :
    .method declaring name shape ∈ u.members owner .methods ↔
      u.lookupMethod owner name shape.parameters false = .ok (.method declaring name shape) := by
  rw [lookupMethod_public, foundOr_eq_ok_iff, ← find?_publicMethods, Option.map_eq_some_iff,
    members, List.mem_map]
  constructor
  · rintro ⟨⟨c, m⟩, hmem, hmember⟩
    refine ⟨(c, m), ?_, hmember⟩
    rw [← methodKey_of_methodMember hmember]
    exact (mem_keepFirst_iff.mp hmem).2
  · rintro ⟨⟨c, m⟩, hfind, hmember⟩
    rw [← methodKey_of_methodMember hmember] at hfind
    exact ⟨(c, m), mem_keepFirst_iff.mpr ⟨List.not_mem_nil, hfind⟩, hmember⟩

/-! ## Hiding -/

/--
Look-ups on a class find no overridden methods: between the class and the one whose declaration is
found, no supertype declares the method.
-/
def HidesOverridden (u : Universe) (owner : String) : Prop :=
  ∀ name parameters declaring shape,
    u.lookupMethod (.named owner) name parameters false =
      .ok (.method (.named declaring) name shape) →
    ∀ lower, u.Above owner lower → u.Below lower declaring → ¬ u.Declares lower (name, parameters)

/-- The walk up from a class comes to each class after all subtypes that it has above the start. -/
def ListsSubtypesFirst (u : Universe) (owner : String) : Prop :=
  ∀ pre c post, u.ancestors owner = pre ++ c :: post →
    ∀ lower, u.Above owner lower → u.Below lower c.name → ∃ b ∈ pre, b.name = lower

/-- The class whose declaration is found comes before all others on the walk that declare it. -/
theorem exists_split_of_lookupMethod {u : Universe} {owner name declaring : String}
    {parameters : List TypeHandle} {shape : MethodShape}
    (h : u.lookupMethod (.named owner) name parameters false =
      .ok (.method (.named declaring) name shape)) :
    ∃ pre c post, u.ancestors owner = pre ++ c :: post ∧ c.name = declaring ∧
      ∀ lower, (∃ b ∈ pre, b.name = lower) → ¬ u.Declares lower (name, parameters) := by
  obtain ⟨pre, c, post, hsplit, ⟨m, -, hmember⟩, hnone⟩ := lookupMethod_eq_ok_iff.mp h
  refine ⟨pre, c, post, hsplit, ?_, ?_⟩
  · cases hmember
    rfl
  · rintro _ ⟨b, hb, rfl⟩ ⟨d, hd, hdeclares⟩
    have hmem : b ∈ u.ancestors owner := by
      rw [hsplit]
      exact List.mem_append_left _ hb
    rw [(u.explores_ancestors owner).class?_of_mem hmem] at hd
    obtain rfl : b = d := Option.some.inj hd
    exact publicMethod?_ne_none_iff.mpr hdeclares (hnone b hb)

/-- To a method that is found leads a chain along which it is not overridden. -/
theorem exists_leadsTo_of_lookupMethod {u : Universe} {owner name declaring : String}
    {parameters : List TypeHandle} {shape : MethodShape}
    (h : u.lookupMethod (.named owner) name parameters false =
      .ok (.method (.named declaring) name shape)) :
    ∃ chain, u.LeadsTo owner chain declaring ∧
      ∀ lower ∈ chain, ¬ u.Declares lower (name, parameters) := by
  obtain ⟨pre, c, post, hsplit, rfl, hnone⟩ := exists_split_of_lookupMethod h
  obtain ⟨chain, hchain, hpre⟩ := (u.explores_ancestors owner).exists_leadsTo hsplit
  exact ⟨chain, hchain, fun lower hlower => hnone lower (hpre lower hlower)⟩

theorem ListsSubtypesFirst.hidesOverridden {u : Universe} {owner : String}
    (h : u.ListsSubtypesFirst owner) : u.HidesOverridden owner := by
  intro name parameters declaring shape hfound lower habove hbelow
  obtain ⟨pre, c, post, hsplit, rfl, hnone⟩ := exists_split_of_lookupMethod hfound
  exact hnone lower (h pre c post hsplit lower habove hbelow)

/-! ## Where subtypes come later -/

/-- A public method without parameters or result. -/
def probe : MethodInfo := ⟨"probe", ⟨[], .primitive .void⟩, .publicOnly⟩

/-- The table in which the classes of some names declare the probe, and no other class anything. -/
def probeTable (names : List String) (name : String) : List MethodInfo :=
  if name ∈ names then [probe] else []

theorem publicMethod?_probeTable (names : List String) (c : ClassInfo) :
    publicMethod? (methodKey probe) (c.retable (probeTable names)) =
      if c.name ∈ names then some probe else none := by
  rw [publicMethod?, ClassInfo.retable, probeTable]
  split <;> rfl

/-- Where only some classes declare the probe, the first of them on the walk has the one found. -/
theorem lookupMethod_probe {u : Universe} {owner : String} {names : List String}
    {pre post : List ClassInfo} {c : ClassInfo} (hsplit : u.ancestors owner = pre ++ c :: post)
    (hc : c.name ∈ names) (hpre : ∀ b ∈ pre, b.name ∉ names) :
    (u.retable (probeTable names)).lookupMethod (.named owner) probe.name probe.shape.parameters
        false =
      .ok (.method (.named c.name) probe.name probe.shape) := by
  let f := ClassInfo.retable (probeTable names)
  refine lookupMethod_eq_ok_iff.mpr ⟨pre.map f, f c, post.map f, ?_, ⟨probe, ?_, rfl⟩, ?_⟩
  · rw [ancestors_retable, hsplit, List.map_append, List.map_cons]
  · exact (publicMethod?_probeTable names c).trans (if_pos hc)
  · intro d hd
    obtain ⟨b, hb, rfl⟩ := List.mem_map.mp hd
    exact (publicMethod?_probeTable names b).trans (if_neg (hpre b hb))

theorem declares_probe {u : Universe} {name : String} {names : List String} {c : ClassInfo}
    (hc : u.class? name = some c) (hname : name ∈ names) :
    (u.retable (probeTable names)).Declares name (methodKey probe) := by
  refine ⟨c.retable (probeTable names), ?_, publicMethod?_ne_none_iff.mp ?_⟩
  · rw [class?_retable, hc, Option.map_some]
  · rw [publicMethod?_probeTable, name_of_class? hc, if_pos hname]
    exact Option.some_ne_none probe

/-- If a subtype is not listed before a class, its declaration does not hide that of the class. -/
theorem not_hidesOverridden_retable {u : Universe} {owner lower : String}
    {pre post : List ClassInfo} {c : ClassInfo} (hsplit : u.ancestors owner = pre ++ c :: post)
    (habove : u.Above owner lower) (hbelow : u.Below lower c.name)
    (hlate : ¬ ∃ b ∈ pre, b.name = lower) :
    ¬ (u.retable (probeTable [lower, c.name])).HidesOverridden owner := by
  intro hhides
  have hpre : ∀ b ∈ pre, b.name ∉ [lower, c.name] := by
    intro b hb hname
    rcases List.mem_pair.mp hname with hname | hname
    · exact hlate ⟨b, hb, hname⟩
    · have hnodup := (u.explores_ancestors owner).nodup_names
      rw [hsplit, List.map_append, List.nodup_append] at hnodup
      exact hnodup.2.2 b.name (List.mem_map_of_mem hb) c.name (by simp) hname
  have hfound := lookupMethod_probe hsplit (List.mem_pair.mpr (.inr rfl)) hpre
  obtain ⟨d, hd⟩ := hbelow.exists_class?
  refine hhides _ _ _ _ hfound lower ?_ ?_ (declares_probe hd (by simp))
  · rw [Above, extends_retable]
    exact habove
  · rw [Below, extends_retable]
    exact hbelow

/--
How far overridden methods are hidden. A bulk query lists what look-ups find. A method that is found
is not overridden along one of the chains that lead to its class, so it is hidden by every class
through which all of them go. It is not overridden anywhere in between if the walk lists subtypes
first; if the walk does not, some declarations over the same hierarchy are found although they are
overridden.
-/
theorem overridden_methods_hidden (u : Universe) (owner : String) :
    (∀ declaring name shape,
      .method declaring name shape ∈ u.members (.named owner) .methods ↔
        u.lookupMethod (.named owner) name shape.parameters false =
          .ok (.method declaring name shape)) ∧
    (∀ name parameters declaring shape,
      u.lookupMethod (.named owner) name parameters false =
        .ok (.method (.named declaring) name shape) →
      ∃ chain, u.LeadsTo owner chain declaring ∧
        ∀ lower ∈ chain, ¬ u.Declares lower (name, parameters)) ∧
    (u.ListsSubtypesFirst owner → u.HidesOverridden owner) ∧
    (¬ u.ListsSubtypesFirst owner → ∃ table, ¬ (u.retable table).HidesOverridden owner) := by
  refine ⟨fun _ _ _ => mem_members_methods_iff,
    fun _ _ _ _ => exists_leadsTo_of_lookupMethod,
    ListsSubtypesFirst.hidesOverridden, fun h => ?_⟩
  simp only [ListsSubtypesFirst, not_forall] at h
  obtain ⟨pre, c, post, hsplit, lower, habove, hbelow, hlate⟩ := h
  exact ⟨_, not_hidesOverridden_retable hsplit habove hbelow hlate⟩

/-- A class or interface that may declare a public method `label`. -/
def labelClass (name : String) (superclass : Option String) (interfaces : List String)
    (declares : Bool) : ClassInfo where
  name := name
  flags := .publicOnly
  superclass := superclass
  interfaces := interfaces
  fields := []
  methods := if declares then [⟨"label", ⟨[], .named "java.lang.String"⟩, .publicOnly⟩] else []
  constructors := []

/-- Two classes that name an interface which a supertype of theirs extends, with its method. -/
def labelUniverse : Universe :=
  ofList [labelClass "app.Named" none [] true,
    labelClass "app.Titled" none ["app.Named"] true,
    labelClass "app.Base" none ["app.Named"] true,
    labelClass "app.Child" (some "app.Base") ["app.Named"] false,
    labelClass "app.Both" none ["app.Named", "app.Titled"] false]

/-- A direct supertype whose declaration is passed over for that of the interface. -/
theorem not_hidesOverridden_label {owner : String} (lower : String) {o l : ClassInfo}
    (howner : labelUniverse.class? owner = some o) (hlower : lower ∈ o.supertypes)
    (hl : labelUniverse.class? lower = some l) (hnamed : "app.Named" ∈ l.supertypes)
    (hdeclares : publicMethod? ("label", []) l ≠ none)
    (hfound : labelUniverse.lookupMethod (.named owner) "label" [] false =
      .ok (.method (.named "app.Named") "label" ⟨[], .named "java.lang.String"⟩)) :
    ¬ labelUniverse.HidesOverridden owner := by
  intro hhides
  refine hhides _ _ _ _ hfound lower ?_ ?_ ⟨l, hl, publicMethod?_ne_none_iff.mp hdeclares⟩
  · exact Relation.ReflTransGen.single ⟨o, howner, hlower⟩
  · exact Relation.TransGen.single ⟨l, hl, hnamed⟩

/--
Overridden methods that are found in an acyclic hierarchy. The interfaces of a class are visited
before its superclass, which may override their methods, and one interface before another that
overrides its method if they are listed in this order.
-/
theorem overridden_methods_found :
    labelUniverse.Acyclic ∧ ¬ labelUniverse.HidesOverridden "app.Child" ∧
      ¬ labelUniverse.HidesOverridden "app.Both" := by
  let rank (name : String) : Nat :=
    if name = "app.Named" then 0 else if name ∈ ["app.Titled", "app.Base"] then 1 else 2
  refine ⟨acyclic_of_rank rank (by decide), ?_, ?_⟩
  · exact not_hidesOverridden_label "app.Base" rfl (by decide) rfl (by decide) (by decide) (by cbv)
  · exact not_hidesOverridden_label "app.Titled" rfl (by decide) rfl (by decide) (by decide)
      (by cbv)

end Universe

end CallFold
