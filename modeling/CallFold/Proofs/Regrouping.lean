import CallFold.Proofs.Failures
import Mathlib

/-!
# Asking for methods in another order

A pass does with each of its methods what an analysis of this method alone would do, so its summary
is put together from these (`passInTurn_fst`). If the methods of a pass are given in another order,
or are divided among several passes, or move in another order when they are analysed at the same
time, every method comes to the same, the logs hold the same entries, and the summaries add up to
the same numbers. `runAll_independent` states this together with the independence of a method from
everything that is asked about others.
-/

namespace CallFold

/-! ## Summaries -/

/-- Whether the calls of the method were evaluated. -/
def MethodPass.isAnalyzed : MethodPass → Bool
  | analyzed _ => true
  | _ => false

namespace PassSummary

/-- The summary of a pass that does with some methods what a function says. -/
def tally (pass : Nat) (keys : List MethodKey) (outcome : MethodKey → MethodPass) :
    PassSummary where
  pass := pass
  analyzed := keys.countP fun key => (outcome key).isAnalyzed
  skipped := keys.countP fun key => outcome key = .skipped
  resolved := (keys.map fun key => (outcome key).resolved).sum
  failed := keys.filter fun key => outcome key = .failed

/-- A summary accounts for just what some summaries account for together. -/
structure Comprises (summary : PassSummary) (parts : List PassSummary) : Prop where
  analyzed : summary.analyzed = (parts.map PassSummary.analyzed).sum
  skipped : summary.skipped = (parts.map PassSummary.skipped).sum
  resolved : summary.resolved = (parts.map PassSummary.resolved).sum
  failed : summary.failed.Perm (parts.flatMap PassSummary.failed)

/--
Summaries of which the one at a position is replaced by as many as it has parts, and of which the
later ones have other numbers.
-/
def Regrouped (position count : Nat) (summaries summaries' : List PassSummary) : Prop :=
  ∃ first summary rest parts rest', summaries = first ++ summary :: rest ∧
    summaries' = first ++ (parts ++ rest') ∧ first.length = position ∧ parts.length = count ∧
    summary.Comprises parts ∧
    List.Forall₂ (fun later later' => later' = { later with pass := later'.pass }) rest rest'

variable {pass : Nat} {keys keys' : List MethodKey} {outcome outcome' : MethodKey → MethodPass}

theorem foldl_add (summary : PassSummary) (keys : List MethodKey)
    (outcome : MethodKey → MethodPass) :
    keys.foldl (fun summary key => summary.add key (outcome key)) summary =
      { pass := summary.pass
        analyzed := summary.analyzed + (tally summary.pass keys outcome).analyzed
        skipped := summary.skipped + (tally summary.pass keys outcome).skipped
        resolved := summary.resolved + (tally summary.pass keys outcome).resolved
        failed := summary.failed ++ (tally summary.pass keys outcome).failed } := by
  induction keys generalizing summary with
  | nil => simp [tally]
  | cons key keys ih =>
    rw [List.foldl_cons, ih]
    cases houtcome : outcome key <;>
      simp [tally, add, houtcome, MethodPass.isAnalyzed, MethodPass.resolved] <;> omega

theorem tally_congr (h : ∀ key ∈ keys, outcome key = outcome' key) (pass : Nat) :
    tally pass keys outcome = tally pass keys outcome' := by
  have hanalyzed : keys.countP (fun key => (outcome key).isAnalyzed) =
      keys.countP fun key => (outcome' key).isAnalyzed :=
    List.countP_congr fun key hkey => by rw [h key hkey]
  have hskipped : keys.countP (fun key => outcome key = .skipped) =
      keys.countP fun key => outcome' key = .skipped :=
    List.countP_congr fun key hkey => by rw [h key hkey]
  have hresolved : keys.map (fun key => (outcome key).resolved) =
      keys.map fun key => (outcome' key).resolved :=
    List.map_congr_left fun key hkey => by rw [h key hkey]
  have hfailed : keys.filter (fun key => outcome key = .failed) =
      keys.filter fun key => outcome' key = .failed :=
    List.filter_congr fun key hkey => by rw [h key hkey]
  rw [tally, hanalyzed, hskipped, hresolved, hfailed, tally]

/-- Taking the methods in parts and in another order comes to the same numbers. -/
theorem comprises_tally {summaries : List PassSummary} {parts : List (List MethodKey)}
    (h : List.Forall₂ (fun summary part => summary = tally summary.pass part outcome) summaries
      parts) (hperm : keys.Perm parts.flatten) (pass : Nat) :
    (tally pass keys outcome).Comprises summaries := by
  have hparts : (tally pass parts.flatten outcome).Comprises summaries := by
    clear hperm
    induction h with
    | nil => exact ⟨rfl, rfl, rfl, .nil⟩
    | @cons summary part summaries parts hhead _ ih =>
      rw [List.flatten_cons]
      refine ⟨?_, ?_, ?_, ?_⟩
      · rw [List.map_cons, List.sum_cons, ← ih.analyzed, hhead]
        exact List.countP_append
      · rw [List.map_cons, List.sum_cons, ← ih.skipped, hhead]
        exact List.countP_append
      · rw [List.map_cons, List.sum_cons, ← ih.resolved, hhead]
        simp only [tally, List.map_append, List.sum_append]
      · rw [List.flatMap_cons, hhead]
        simp only [tally, List.filter_append]
        exact ih.failed.append_left _
  exact ⟨(hperm.countP_eq _).trans hparts.analyzed, (hperm.countP_eq _).trans hparts.skipped,
    (hperm.map _).sum_eq.trans hparts.resolved, (hperm.filter _).trans hparts.failed⟩

end PassSummary

namespace Session

variable {s t : Session} {metadata : Metadata} {key : MethodKey} {methods keys : List MethodKey}
  {parts : List (List MethodKey)}

/-- The methods that a pass accounts for, each as often as it does. -/
def turns (enabled : Bool) (methods : List MethodKey) : List MethodKey :=
  if enabled then distinctKeys methods else methods

/-- What a pass does with a method that it accounts for. -/
def verdict (s : Session) (metadata : Metadata) (key : MethodKey) : MethodPass :=
  if s.config.enabled then (s.analyzeMethod metadata key).1 else .skipped

theorem mem_turns_iff {enabled : Bool} : key ∈ turns enabled methods ↔ key ∈ methods := by
  cases enabled with
  | false => rfl
  | true => exact mem_distinctKeys_iff

theorem Alike.verdict (h : Alike key s t) (hs : s.Orderly) (ht : t.Orderly) (metadata : Metadata) :
    t.verdict metadata key = s.verdict metadata key := by
  rw [Session.verdict, Session.verdict, h.settings.config, (h.analyzeMethod hs ht metadata).1]

/-- What is done with a method at its turn could be told before the first turn. -/
theorem analyzeAll_fst (hs : s.Orderly) (hkeys : keys.Nodup) (metadata : Metadata)
    (summary : PassSummary) :
    (analyzeAll metadata keys summary s).1 =
      keys.foldl (fun summary key => summary.add key (s.analyzeMethod metadata key).1) summary := by
  induction keys generalizing summary s with
  | nil => rfl
  | cons key keys ih =>
    obtain ⟨hkey, hkeys⟩ := List.nodup_cons.mp hkeys
    rw [analyzeAll_cons, ih (hs.analyzeMethod metadata key) hkeys, List.foldl_cons]
    refine List.foldl_ext _ _ _ fun summary other hother => ?_
    have hne : other ≠ key := fun heq => hkey (heq ▸ hother)
    have halike := (analyzes_analyzeMethod s metadata key).alike hs.paired hne
    rw [(halike.analyzeMethod hs (hs.analyzeMethod metadata key) metadata).1]

/-- The summary of a pass is put together from what is done with each method on its own. -/
theorem passInTurn_fst (hs : s.Orderly) (metadata : Metadata) (methods : List MethodKey) :
    (s.passInTurn metadata methods).1 =
      .tally (s.passes + 1) (turns s.config.enabled methods) (s.verdict metadata) := by
  rw [passInTurn]
  by_cases henabled : s.config.enabled = true
  · have hbegun := hs.begin (s.passes + 1)
    have hverdict : ∀ key, s.verdict metadata key =
        ({ s with passes := s.passes + 1 }.analyzeMethod metadata key).1 := by
      intro key
      rw [verdict, if_pos henabled, ((alike_begin key s _).analyzeMethod hs hbegun metadata).1]
    rw [if_pos henabled, turns, if_pos henabled,
      analyzeAll_fst hbegun (nodup_distinctKeys methods), PassSummary.foldl_add, funext hverdict]
    simp [PassSummary.tally]
  · rw [if_neg henabled, turns, if_neg henabled]
    simp [PassSummary.tally, verdict, henabled, MethodPass.isAnalyzed, MethodPass.resolved]

/-! ## A pass in parts -/

theorem runInTurn_append (passes passes' : List (Metadata × List MethodKey)) (s : Session) :
    runInTurn (passes ++ passes') s =
      ((runInTurn passes s).1 ++ (runInTurn passes' (runInTurn passes s).2).1,
        (runInTurn passes' (runInTurn passes s).2).2) := by
  induction passes generalizing s with
  | nil => rfl
  | cons pass passes ih =>
    obtain ⟨metadata, methods⟩ := pass
    rw [List.cons_append, runInTurn_cons, runInTurn_cons, ih]
    rfl

/-- Passes over disjoint lists do with each method what is done with it on its own. -/
theorem forall₂_runInTurn_parts (hs : s.Orderly) (hparts : parts.Pairwise List.Disjoint)
    {outcome : MethodKey → MethodPass}
    (houtcome : ∀ part ∈ parts, ∀ key ∈ part, s.verdict metadata key = outcome key) :
    List.Forall₂ (fun summary part =>
        summary = PassSummary.tally summary.pass (turns s.config.enabled part) outcome)
      (runInTurn (parts.map fun part => (metadata, part)) s).1 parts := by
  induction parts generalizing s with
  | nil => exact .nil
  | cons part parts ih =>
    obtain ⟨hpart, hparts⟩ := List.pairwise_cons.mp hparts
    have hnext := hs.passInTurn metadata part
    rw [List.map_cons, runInTurn_cons]
    refine .cons ?_ ?_
    · have hcongr := PassSummary.tally_congr fun key (hkey : key ∈ turns s.config.enabled part) =>
        houtcome part List.mem_cons_self key (mem_turns_iff.mp hkey)
      rw [passInTurn_fst hs]
      exact hcongr _
    · have hrest : ∀ part' ∈ parts, ∀ key ∈ part',
          (s.passInTurn metadata part).2.verdict metadata key = outcome key := by
        intro part' hpart' key hkey
        have hnotMem : key ∉ part := fun hmem => hpart part' hpart' hmem hkey
        rw [(alike_passInTurn_of_notMem hs metadata hnotMem).verdict hs hnext]
        exact houtcome part' (List.mem_cons_of_mem _ hpart') key hkey
      have hforall := ih hnext hparts hrest
      rwa [(sameSettings_passInTurn s metadata part).config] at hforall

theorem perm_turns (enabled : Bool) (hperm : parts.flatten.Perm methods)
    (hparts : parts.Pairwise List.Disjoint) :
    (turns enabled methods).Perm (parts.map (turns enabled)).flatten := by
  cases enabled with
  | false =>
    have hid : parts.map (turns false) = parts := List.map_id parts
    rw [hid]
    exact hperm.symm
  | true =>
    have hdisjoint : (parts.map distinctKeys).Pairwise List.Disjoint := by
      refine List.pairwise_map.mpr (hparts.imp fun hdisjoint key hkey hkey' => ?_)
      exact hdisjoint (mem_distinctKeys_iff.mp hkey) (mem_distinctKeys_iff.mp hkey')
    have hnodup : ∀ keys ∈ parts.map distinctKeys, keys.Nodup := by
      intro keys hkeys
      obtain ⟨part, -, rfl⟩ := List.mem_map.mp hkeys
      exact nodup_distinctKeys part
    refine (List.perm_ext_iff_of_nodup (nodup_distinctKeys methods)
      (List.nodup_flatten.mpr ⟨hnodup, hdisjoint⟩)).mpr fun key => ?_
    rw [mem_distinctKeys_iff, ← hperm.mem_iff, List.mem_flatten, List.mem_flatten]
    simp only [List.mem_map, exists_exists_and_eq_and, mem_distinctKeys_iff]

/-- The summary of a pass accounts for what the summaries of its parts account for. -/
theorem comprises_runInTurn_parts (hs : s.Orderly) (hperm : parts.flatten.Perm methods)
    (hparts : parts.Pairwise List.Disjoint) (metadata : Metadata) :
    (s.passInTurn metadata methods).1.Comprises
      (runInTurn (parts.map fun part => (metadata, part)) s).1 := by
  rw [passInTurn_fst hs]
  refine PassSummary.comprises_tally ?_ (perm_turns s.config.enabled hperm hparts) _
  rw [List.forall₂_map_right_iff]
  exact forall₂_runInTurn_parts hs hparts fun _ _ _ _ => rfl

/-- Sessions that are alike for every method have the same passes but for their numbers. -/
theorem forall₂_runInTurn_of_alike (h : ∀ key, Alike key s t) (hsettings : SameSettings s t)
    (hs : s.Orderly) (ht : t.Orderly) (passes : List (Metadata × List MethodKey)) :
    List.Forall₂ (fun summary summary' => summary' = { summary with pass := summary'.pass })
      (runInTurn passes s).1 (runInTurn passes t).1 := by
  induction passes generalizing s t with
  | nil => exact .nil
  | cons pass passes ih =>
    obtain ⟨metadata, methods⟩ := pass
    have hverdict : t.verdict metadata = s.verdict metadata :=
      funext fun key => (h key).verdict hs ht metadata
    have hnext : SameSettings (s.passInTurn metadata methods).2 (t.passInTurn metadata methods).2 :=
      ((sameSettings_passInTurn s metadata methods).symm.trans hsettings).trans
        (sameSettings_passInTurn t metadata methods)
    rw [runInTurn_cons, runInTurn_cons]
    refine .cons ?_ (ih (fun key => (h key).passInTurn hs ht metadata Iff.rfl) hnext
      (hs.passInTurn _ _) (ht.passInTurn _ _))
    rw [passInTurn_fst hs, passInTurn_fst ht, hverdict, hsettings.config]
    rfl

theorem metadataFor_append (key : MethodKey) (passes passes' : List (Metadata × List MethodKey)) :
    metadataFor key (passes ++ passes') = metadataFor key passes ++ metadataFor key passes' := by
  rw [metadataFor, List.filter_append, List.map_append]
  rfl

theorem metadataFor_singleton (key : MethodKey) (metadata : Metadata) (methods : List MethodKey) :
    metadataFor key [(metadata, methods)] = if key ∈ methods then [metadata] else [] := by
  by_cases hmem : key ∈ methods <;> simp [metadataFor, hmem]

/-- A method is asked for in one of the parts, if it is at all. -/
theorem metadataFor_parts (hparts : parts.Pairwise List.Disjoint) (metadata : Metadata)
    (key : MethodKey) :
    metadataFor key (parts.map fun part => (metadata, part)) =
      if key ∈ parts.flatten then [metadata] else [] := by
  induction parts with
  | nil => rfl
  | cons part parts ih =>
    obtain ⟨hpart, hparts⟩ := List.pairwise_cons.mp hparts
    rw [List.map_cons, ← List.singleton_append, metadataFor_append, metadataFor_singleton,
      ih hparts, List.flatten_cons]
    by_cases hmem : key ∈ part
    · have hrest : key ∉ parts.flatten := by
        intro hflatten
        obtain ⟨part', hpart', hmem'⟩ := List.mem_flatten.mp hflatten
        exact hpart part' hpart' hmem hmem'
      rw [if_pos hmem, if_neg hrest, if_pos (List.mem_append_left _ hmem)]
      rfl
    · simp [hmem]

/-! ## Sessions that differ in order only -/

theorem Orderly.get?_loaded_of_alike (hs : s.Orderly) (ht : t.Orderly) (h : ∀ key, Alike key s t)
    (hsettings : SameSettings s t) (type : String) :
    t.store.loaded.get? type = s.store.loaded.get? type := by
  have hseen : ∀ key, t.Seen key ↔ s.Seen key := by
    intro key
    rw [Seen, Seen, (h key).state, (h key).failure]
  refine Option.ext fun c => ?_
  rw [ht.get?_loaded_iff, hs.get?_loaded_iff, hsettings.load]
  simp only [hseen]

/-- Every record is together with the same registration. -/
theorem perm_zip_of_alike (h : ∀ key, Alike key s t) :
    (t.resolutions.zip t.registrations).Perm (s.resolutions.zip s.registrations) :=
  perm_of_filter_eq (fun entry : ResolutionRecord × Registration => entry.1.method)
    fun key => (h key).entries

theorem rearranged_of_alike (h : ∀ key, Alike key s t) (hsettings : SameSettings s t)
    (hs : s.Orderly) (ht : t.Orderly) : Rearranged s t where
  settings := hsettings
  methods key := (h key).toSameFor
  classes := hs.get?_loaded_of_alike ht h hsettings
  registrations := by
    have hmap := (perm_zip_of_alike h).map Prod.snd
    rwa [List.map_snd_zip ht.paired.le, List.map_snd_zip hs.paired.le] at hmap
  records := perm_of_filter_eq ResolutionRecord.method fun key => (h key).records
  tags := perm_of_filter_eq CallSiteTag.method fun key => (h key).tags

theorem rearranged_schedule (s : Session) (schedule : Schedule) :
    Rearranged s { s with schedule } :=
  ⟨⟨rfl, rfl, rfl, rfl⟩, fun _ => ⟨rfl, rfl, rfl, rfl⟩, fun _ => rfl, .refl _, .refl _, .refl _⟩

theorem alike_schedule (key : MethodKey) (s : Session) (schedule : Schedule) :
    Alike key s { s with schedule } :=
  ⟨⟨rfl, rfl, rfl, rfl⟩, ⟨rfl, rfl, rfl, rfl⟩, rfl⟩

theorem length_runInTurn (passes : List (Metadata × List MethodKey)) (s : Session) :
    (runInTurn passes s).1.length = passes.length := by
  induction passes generalizing s with
  | nil => rfl
  | cons pass passes ih =>
    obtain ⟨metadata, methods⟩ := pass
    rw [runInTurn_cons, List.length_cons, List.length_cons, ih]

theorem sameSettings_runInTurn (passes : List (Metadata × List MethodKey)) (s : Session) :
    SameSettings s (runInTurn passes s).2 := by
  induction passes generalizing s with
  | nil => exact ⟨rfl, rfl, rfl, rfl⟩
  | cons pass passes ih => exact (sameSettings_passInTurn s pass.1 pass.2).trans (ih _)

theorem metadataFor_regroup (hperm : parts.flatten.Perm methods)
    (hparts : parts.Pairwise List.Disjoint) (earlier later : List (Metadata × List MethodKey))
    (metadata : Metadata) (key : MethodKey) :
    metadataFor key (earlier ++ (metadata, methods) :: later) =
      metadataFor key (earlier ++ (parts.map (fun part => (metadata, part)) ++ later)) := by
  rw [← List.singleton_append, metadataFor_append, metadataFor_append, metadataFor_singleton,
    metadataFor_append, metadataFor_append, metadataFor_parts hparts]
  simp only [hperm.mem_iff]

/-- The summaries of a run in which a pass is divided. -/
theorem regrouped_runInTurn (hs : s.Orderly) (hperm : parts.flatten.Perm methods)
    (hparts : parts.Pairwise List.Disjoint) (earlier later : List (Metadata × List MethodKey))
    (metadata : Metadata) :
    PassSummary.Regrouped earlier.length parts.length
      (runInTurn (earlier ++ (metadata, methods) :: later) s).1
      (runInTurn (earlier ++ (parts.map (fun part => (metadata, part)) ++ later)) s).1 := by
  rw [runInTurn_append, runInTurn_append, runInTurn_append, runInTurn_cons]
  dsimp only
  generalize hmid : (runInTurn earlier s).2 = mid
  have hmid : mid.Orderly := hmid ▸ hs.runInTurn earlier
  refine ⟨_, _, _, _, _, rfl, rfl, length_runInTurn earlier s, ?_,
    comprises_runInTurn_parts hmid hperm hparts metadata, ?_⟩
  · rw [length_runInTurn, List.length_map]
  · have hkeys : ∀ key, Alike key (mid.passInTurn metadata methods).2
        (runInTurn (parts.map fun part => (metadata, part)) mid).2 := by
      intro key
      have hsame := metadataFor_regroup hperm hparts [] [] metadata key
      rw [List.append_nil] at hsame
      exact (Alike.refl key mid).runInTurn hmid hmid hsame
    exact forall₂_runInTurn_of_alike hkeys
      ((sameSettings_passInTurn mid metadata methods).symm.trans (sameSettings_runInTurn _ mid))
      (hmid.passInTurn metadata methods) (hmid.runInTurn _) later

/--
What becomes of a method depends only on the metadata of the passes that ask for it, and not on the
order in which methods move that are analysed at the same time. So a pass may be replaced by passes
over its methods in another order and in disjoint parts: every method comes to the same, the logs
hold the same entries, and the summaries differ in their grouping and numbers. If methods are
analysed in turn, a record stays together with its registration.
-/
theorem runAll_independent (hs : s.Reachable) (schedule : Schedule) :
    (∀ (key : MethodKey) (passes passes' : List (Metadata × List MethodKey)),
      metadataFor key passes = metadataFor key passes' →
      SameFor key (runAll passes s).2 (runAll passes' { s with schedule }).2 ∧
        (runAll passes' { s with schedule }).2.resolutions.forMethod key =
          (runAll passes s).2.resolutions.forMethod key) ∧
      ∀ (earlier later : List (Metadata × List MethodKey)) (metadata : Metadata)
        (methods : List MethodKey) (parts : List (List MethodKey)), parts.flatten.Perm methods →
        parts.Pairwise List.Disjoint →
        ∀ t t' summaries summaries',
          runAll (earlier ++ (metadata, methods) :: later) s = (summaries, t) →
          runAll (earlier ++ (parts.map (fun part => (metadata, part)) ++ later))
            { s with schedule } = (summaries', t') →
          Rearranged t t' ∧
            (s.config.parallel = false →
              (t'.resolutions.zip t'.registrations).Perm (t.resolutions.zip t.registrations)) ∧
            PassSummary.Regrouped earlier.length parts.length summaries summaries' := by
  have horderly := hs.orderly
  have horderly' := (rearranged_schedule s schedule).orderly horderly
  have hrun := fun passes => (Rearranged.refl s).runAll rfl horderly passes
  have hrun' := fun passes => (rearranged_schedule s schedule).runAll rfl horderly passes
  constructor
  · intro key passes passes' hsame
    have halike := (Alike.refl key s).runInTurn horderly horderly hsame
    have hfor := ((hrun passes).2.methods key).symm.trans
      (halike.toSameFor.trans ((hrun' passes').2.methods key))
    refine ⟨hfor, ?_⟩
    rw [ResolutionLog.forMethod, ResolutionLog.forMethod, hfor.records]
  · intro earlier later metadata methods parts hperm hparts t t' summaries summaries' ht ht'
    -- the runs in turn are alike for every method, and each run is close to the one in turn
    have hsame := metadataFor_regroup hperm hparts earlier later metadata
    have hturns := rearranged_of_alike
      (fun key => (Alike.refl key s).runInTurn horderly horderly (hsame key))
      ((sameSettings_runInTurn _ s).symm.trans (sameSettings_runInTurn _ s))
      (horderly.runInTurn _) (horderly.runInTurn _)
    obtain ⟨hsummaries, hfirst⟩ := hrun (earlier ++ (metadata, methods) :: later)
    obtain ⟨hsummaries', hsecond⟩ :=
      hrun' (earlier ++ (parts.map (fun part => (metadata, part)) ++ later))
    rw [ht] at hsummaries hfirst
    rw [ht'] at hsummaries' hsecond
    refine ⟨hfirst.symm.trans (hturns.trans hsecond), fun hsequential => ?_, ?_⟩
    · have hzip := perm_zip_of_alike fun key =>
        (alike_schedule key s schedule).runInTurn horderly horderly' (hsame key)
      have hsequential' : { s with schedule }.config.parallel = false := hsequential
      rwa [← runAll_of_sequential hsequential, ← runAll_of_sequential hsequential', ht, ht'] at hzip
    · dsimp only at hsummaries hsummaries'
      rw [hsummaries, hsummaries']
      exact regrouped_runInTurn horderly hperm hparts earlier later metadata

/-! ### A method among others -/

/-- A session for two methods of a class, which are analysed at the same time. -/
def lookSession : Session :=
  fresh {} (.ofClasses [⟨"app/Boot", [seeAndCheck, look]⟩]) hooks [] fun _ => []

/-- Lets the second of two methods move first, and then both in turn. -/
def alternately : Schedule := fun _ => [1, 0, 1, 0, 1, 0, 1, 0, 1, 0, 1, 0, 1]

/-- The method alone, before and after the class is known. -/
def lonePasses : List (Metadata × List MethodKey) :=
  [(knowing [], [lookKey]), (knowing ["app.Late"], [lookKey])]

/-- The same with a method that fails on the way and one that cannot be loaded. -/
def busyPasses : List (Metadata × List MethodKey) :=
  [(knowing [], [seeAndCheckKey, lookKey, seeAndCheckKey]),
    (knowing ["app.Late"], [seeAndCheckKey]),
    (knowing ["app.Late"], [⟨"app/Missing", "run", "()V"⟩, lookKey, lookKey])]

/--
The look is resolved in the busy run as it is in the lone one, and with the same records, in
whatever order the methods move. And the first pass of the busy run may be taken in parts.
-/
theorem runAll_independent_look :
    lookSession.Reachable ∧ metadataFor lookKey lonePasses = metadataFor lookKey busyPasses ∧
      (runAll lonePasses lookSession).2.outcome? lookKey 1 =
        some (.resolved (.type (.named "app.Late"))) ∧
      (runAll busyPasses { lookSession with schedule := alternately }).2.outcome? lookKey 1 =
        some (.resolved (.type (.named "app.Late"))) ∧
      (runAll busyPasses { lookSession with schedule := alternately }).2.resolutions.forMethod
        lookKey = (runAll lonePasses lookSession).2.resolutions.forMethod lookKey ∧
      (runAll busyPasses lookSession).2.failures.contains seeAndCheckKey = true ∧
      Rearranged (runAll busyPasses lookSession).2
        (runAll ((knowing [], [lookKey]) :: (knowing [], [seeAndCheckKey, seeAndCheckKey]) ::
          busyPasses.tail) { lookSession with schedule := alternately }).2 := by
  have hreachable : lookSession.Reachable := ⟨_, _, _, _, _, [], rfl⟩
  have hsame : metadataFor lookKey lonePasses = metadataFor lookKey busyPasses := by
    simp [metadataFor, lonePasses, busyPasses, lookKey, seeAndCheckKey]
  have hlone : (runAll lonePasses lookSession).2.outcome? lookKey 1 =
      some (.resolved (.type (.named "app.Late"))) := by
    rw [lookSession, fresh, withCatalog_start]
    cbv
  have hfailed : (runAll busyPasses lookSession).2.failures.contains seeAndCheckKey = true := by
    rw [lookSession, fresh, withCatalog_start]
    cbv
  obtain ⟨hmethods, hparts⟩ := runAll_independent hreachable alternately
  obtain ⟨hfor, hrecords⟩ := hmethods lookKey lonePasses busyPasses hsame
  refine ⟨hreachable, hsame, hlone, (hfor.outcome? 1).trans hlone, hrecords, hfailed, ?_⟩
  have hperm : [[lookKey], [seeAndCheckKey, seeAndCheckKey]].flatten.Perm
      [seeAndCheckKey, lookKey, seeAndCheckKey] := .swap _ _ _
  have hdisjoint : [[lookKey], [seeAndCheckKey, seeAndCheckKey]].Pairwise List.Disjoint := by
    simp [lookKey, seeAndCheckKey]
  exact (hparts [] busyPasses.tail (knowing []) _ _ hperm hdisjoint _ _ _ _ rfl rfl).1

end Session

end CallFold
