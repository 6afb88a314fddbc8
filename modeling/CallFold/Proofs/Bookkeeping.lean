import CallFold.Proofs.Independence
import Mathlib

/-!
# The books of a session

A session writes four books: the caches of its methods, the records of resolved calls, the
registrations, and the tags. Each is written on its own, and a method can fail, be skipped or be
asked for twice in between. Yet they always agree. Every entry of a cache has exactly one record
(`Session.Recorded`). If methods are analysed in turn, every record has its registration at the same
place, and the tags are the records of calls that may be replaced (`Session.Booked`). If they are
analysed at the same time, the logs are such books in another order. The summaries of the passes
account for every record and every method.
-/

namespace CallFold

/-- The log has a record of a call site of a method with an outcome. -/
def ResolutionLog.Records (log : ResolutionLog) (key : MethodKey) (site : Nat) (o : Outcome) :
    Prop :=
  ∃ r ∈ log, r.method = key ∧ r.site = site ∧ r.outcome = o

/-- The number of methods that a pass accounts for. -/
def PassSummary.total (summary : PassSummary) : Nat :=
  summary.analyzed + summary.skipped + summary.failed.length

namespace Session

/--
A registration belongs to a record: it is what the handler of the recorded call registered when it
was asked, in a pass over the method, with the outcomes of the method that were recorded earlier.
-/
def Registered (origin : Session) (asked : Metadata → MethodKey → Prop) (earlier : ResolutionLog)
    (record : ResolutionRecord) (registration : Registration) : Prop :=
  ∃ metadata body graph cache call, asked metadata record.method ∧
    Loads origin.load record.method body ∧ FrameGraph.build body = .ok graph ∧
    (∀ site o, cache.get? site = some o ↔ earlier.Records record.method site o) ∧
    call ∈ (origin.evaluator metadata graph).recognizedCalls ∧ call.site = record.site ∧
    call.callee.signature = record.signature ∧
    (origin.evaluator metadata graph).decide cache call =
      .ok (some ⟨record.outcome, registration⟩)

/-- Whether the catalog lets the site of a recorded call be replaced. -/
def taggable (catalog : Catalog) (record : ResolutionRecord) : Bool :=
  (catalog.get? record.signature).any CatalogEntry.taggable

/-- The tag that a record would have. -/
def tagOfRecord (record : ResolutionRecord) : CallSiteTag :=
  ⟨record.method, record.site, record.outcome⟩

/-- What is kept of the methods is what is recorded, and it is recorded once. -/
structure Recorded (s : Session) : Prop where
  entries : ∀ key site o, s.outcome? key site = some o ↔ s.resolutions.Records key site o
  distinct : (s.resolutions.map fun r => (r.method, r.site)).Nodup

/-- The books of a session agree. -/
structure Booked (origin : Session) (asked : Metadata → MethodKey → Prop) (s : Session) :
    Prop extends Recorded s where
  length : s.registrations.length = s.resolutions.length
  registered : ∀ n record registration, s.resolutions[n]? = some record →
    s.registrations[n]? = some registration →
    Registered origin asked (s.resolutions.take n) record registration
  tags : s.tags = if origin.config.tagCallSites then
    (s.resolutions.filter (taggable origin.catalog)).map tagOfRecord else []

variable {origin s s' : Session} {metadata : Metadata} {key : MethodKey} {outcome : MethodPass}
  {asked : Metadata → MethodKey → Prop} {store : CodeStore} {graph : FrameGraph}
  {cache last : OutcomeCache} {calls : List ResolvedCall}

/-! ## Records of an evaluation -/

theorem records_append {log log' : ResolutionLog} {site : Nat} {o : Outcome} :
    ResolutionLog.Records (log ++ log') key site o ↔
      log.Records key site o ∨ log'.Records key site o := by
  simp only [ResolutionLog.Records, List.mem_append, or_and_right, exists_or]

theorem records_map_recordOf {key' : MethodKey} {site : Nat} {o : Outcome} :
    ResolutionLog.Records (calls.map (recordOf key)) key' site o ↔
      key = key' ∧ ∃ call ∈ calls, call.site = site ∧ call.outcome = o := by
  constructor
  · rintro ⟨r, hr, hkey, hrest⟩
    obtain ⟨call, hcall, rfl⟩ := List.mem_map.mp hr
    exact ⟨hkey, call, hcall, hrest⟩
  · rintro ⟨hkey, call, hcall, hrest⟩
    exact ⟨recordOf key call, List.mem_map_of_mem hcall, hkey, hrest⟩

/-- An evaluation starts with the outcomes that are kept for the method. -/
theorem outcome?_of_prepare (h : s.prepare key = (store, .ok (graph, cache))) (site : Nat) :
    s.outcome? key site = cache.get? site := by
  rcases prepare_eq_ok h with ⟨state, hstate, -, rfl⟩ | ⟨hnone, rfl, -⟩
  · simp [outcome?, cache?, hstate]
  · simp [outcome?, cache?, hnone, OutcomeCache.get?, OutcomeCache.empty]

theorem outcome?_commit (s : Session) (key : MethodKey) (graph : FrameGraph) (cache : OutcomeCache)
    (report : MethodReport) (key' : MethodKey) (site : Nat) :
    (s.commit key graph cache report).outcome? key' site =
      if key' = key then cache.get? site else s.outcome? key' site := by
  simp only [outcome?, cache?, commit, Table.get?_insert]
  split <;> rfl

/-! ## One analysis keeps the books -/

section Commit

variable {d : Evaluator.Decisions} (hrecorded : Recorded s) (hbooked : Booked origin asked s)
  (hprepare : s.prepare key = (store, .ok (graph, cache)))
  (htakes : (s.evaluator metadata graph).Takes cache
    (s.evaluator metadata graph).recognizedCalls last d)

include hrecorded hprepare in
/-- What an evaluation starts with is what is recorded of the method. -/
theorem Recorded.get?_iff {site : Nat} {o : Outcome} :
    cache.get? site = some o ↔ s.resolutions.Records key site o := by
  rw [← outcome?_of_prepare hprepare, hrecorded.entries]

include hrecorded hprepare htakes in
theorem Recorded.entries_commit {key' : MethodKey} {site : Nat} {o : Outcome} :
    (if key' = key then last.get? site else s.outcome? key' site) = some o ↔
      ResolutionLog.Records (s.resolutions ++ d.resolved.map (recordOf key)) key' site o := by
  rw [records_append, records_map_recordOf]
  split
  · next heq =>
    subst heq
    rw [htakes.get?_iff, hrecorded.get?_iff hprepare]
    simp
  · next hne =>
    rw [hrecorded.entries, or_iff_left]
    exact fun h => hne h.1.symm

include hrecorded hprepare htakes in
theorem Recorded.distinct_commit :
    ((s.resolutions ++ d.resolved.map (recordOf key)).map fun r => (r.method, r.site)).Nodup := by
  rw [List.map_append, List.map_map]
  refine hrecorded.distinct.append ?_ ?_
  · have hsites := htakes.nodup_resolved.map (Prod.mk_right_injective key)
    rwa [List.map_map] at hsites
  · -- a call that was recorded before is in the cache, and so it is not resolved again
    rw [List.disjoint_left]
    intro place hold hnew
    obtain ⟨r, hr, rfl⟩ := List.mem_map.mp hold
    obtain ⟨call, hcall, heq⟩ := List.mem_map.mp hnew
    obtain ⟨hmethod, hsite⟩ := Prod.mk.inj heq
    have hknown : cache.get? call.site = some r.outcome :=
      (hrecorded.get?_iff hprepare).mpr ⟨r, hr, hmethod.symm, hsite.symm, rfl⟩
    rw [htakes.get?_of_resolved hcall] at hknown
    simp at hknown

include hbooked hprepare htakes in
theorem Booked.registered_commit (hsound : s.Sound) (hsettings : SameSettings origin s)
    (hasked : asked metadata key) {n : Nat} {call : ResolvedCall}
    (hcall : d.resolved[n]? = some call) :
    Registered origin asked (s.resolutions ++ (d.resolved.take n).map (recordOf key))
      (recordOf key call) call.registration := by
  obtain ⟨body, hloads, hbuild⟩ := hsound.prepare hprepare
  have hsplit : d.resolved = d.resolved.take n ++ call :: d.resolved.drop (n + 1) := by
    obtain ⟨hn, rfl⟩ := List.getElem?_eq_some_iff.mp hcall
    rw [← List.drop_eq_getElem_cons, List.take_append_drop]
  obtain ⟨recognized, hmem, r, seen, rfl, hdecide, hseen⟩ := htakes.exists_decision hsplit
  rw [hsettings.evaluator] at hmem hdecide
  refine ⟨metadata, body, graph, seen, recognized, hasked, hsettings.load ▸ hloads, hbuild, ?_,
    hmem, rfl, rfl, hdecide⟩
  intro site o
  rw [hseen, hbooked.toRecorded.get?_iff hprepare, records_append, records_map_recordOf]
  simp [recordOf]

include htakes in
theorem taggable_recordOf (hsettings : SameSettings origin s) {call : ResolvedCall}
    (hcall : call ∈ d.resolved) : taggable origin.catalog (recordOf key call) = call.taggable := by
  obtain ⟨earlier, later, hsplit⟩ := List.append_of_mem hcall
  obtain ⟨recognized, hmem, r, -, rfl, -⟩ := htakes.exists_decision hsplit
  rw [hsettings.evaluator] at hmem
  have hentry : origin.catalog.get? recognized.callee.signature = some recognized.entry :=
    Evaluator.get?_catalog_of_mem hmem
  simp only [taggable, recordOf, Evaluator.resolvedCall, hentry, Option.any_some]

include hbooked htakes in
theorem Booked.tags_commit (hsettings : SameSettings origin s) :
    s.tags ++ (d.resolved.filter fun call => call.taggable && s.config.tagCallSites).map
        (tagOf key) =
      if origin.config.tagCallSites then
        ((s.resolutions ++ d.resolved.map (recordOf key)).filter (taggable origin.catalog)).map
          tagOfRecord
      else [] := by
  have htaggable : (d.resolved.map (recordOf key)).filter (taggable origin.catalog) =
      (d.resolved.filter ResolvedCall.taggable).map (recordOf key) := by
    rw [List.filter_map]
    congr 1
    exact List.filter_congr fun call hcall => taggable_recordOf htakes hsettings hcall
  have htags : tagOfRecord ∘ recordOf key = tagOf key := rfl
  rw [hbooked.tags, hsettings.config]
  split
  · next hon =>
    simp only [hon, Bool.and_true]
    rw [List.filter_append, List.map_append, htaggable, List.map_map, htags]
  · next hoff => simp [hoff]

end Commit

theorem Recorded.analyze (hs : Recorded s) (h : Analyzes s metadata key outcome s') :
    Recorded s' := by
  cases h with
  | skipped _ => exact hs
  | failed _ _ => exact ⟨hs.entries, hs.distinct⟩
  | analyzed _ _ hprepare htakes =>
    refine ⟨?_, hs.distinct_commit hprepare htakes⟩
    intro key' site o
    rw [outcome?_commit]
    exact hs.entries_commit hprepare htakes

theorem Booked.analyze (hbooked : Booked origin asked s) (hsound : s.Sound)
    (hsettings : SameSettings origin s) (hasked : asked metadata key)
    (h : Analyzes s metadata key outcome s') : Booked origin asked s' := by
  have hrecorded := hbooked.toRecorded.analyze h
  cases h with
  | skipped _ => exact hbooked
  | failed _ _ => exact ⟨hrecorded, hbooked.length, hbooked.registered, hbooked.tags⟩
  | @analyzed store graph cache last d _ _ hprepare htakes =>
    refine ⟨hrecorded, ?_, ?_, hbooked.tags_commit htakes hsettings⟩
    · simp [commit, hbooked.length]
    · intro n record registration hrecord hregistration
      simp only [commit] at hrecord hregistration ⊢
      -- the two logs grow by as many entries, so a new record and its registration stay together
      rcases Nat.lt_or_ge n s.resolutions.length with hold | hnew
      · rw [List.getElem?_append_left hold] at hrecord
        rw [List.getElem?_append_left (hbooked.length ▸ hold)] at hregistration
        rw [List.take_append_of_le_length hold.le]
        exact hbooked.registered n record registration hrecord hregistration
      · rw [List.getElem?_append_right hnew, List.getElem?_map] at hrecord
        rw [List.getElem?_append_right (hbooked.length ▸ hnew), List.getElem?_map,
          hbooked.length] at hregistration
        obtain ⟨call, hcall, rfl⟩ := Option.map_eq_some_iff.mp hrecord
        rw [hcall] at hregistration
        obtain rfl := Option.some.inj hregistration
        rw [List.take_append, List.take_of_length_le hnew, ← List.map_take]
        exact hbooked.registered_commit hprepare htakes hsound hsettings hasked hcall

/-! ## The whole course of a session keeps them -/

theorem recorded_fresh (config : Config) (load : Loader) (catalog : Catalog)
    (signatures : List CallSignature) (schedule : Schedule) :
    Recorded (fresh config load catalog signatures schedule) where
  entries key site o := by
    constructor
    · intro h
      cases h
    · rintro ⟨r, hr, -⟩
      cases hr
  distinct := List.nodup_nil

/-- The order of the records is of no account. -/
theorem Rearranged.recorded (h : Rearranged s s') (hs : Recorded s) : Recorded s' where
  entries key site o := by
    rw [(h.methods key).outcome?, hs.entries, ResolutionLog.Records, ResolutionLog.Records]
    simp only [h.records.mem_iff]
  distinct := (h.records.map _).nodup_iff.mpr hs.distinct

theorem Evolves.recorded (h : Evolves asked s s') (hs : Recorded s) : Recorded s' :=
  h.invariant hs (fun _ hu => ⟨hu.entries, hu.distinct⟩)
    (fun _ _ _ _ _ _ hu hanalyzes => hu.analyze hanalyzes)
    fun _ _ _ hu hreordered => hreordered.rearranged.recorded hu

theorem booked_fresh (config : Config) (load : Loader) (catalog : Catalog)
    (signatures : List CallSignature) (schedule : Schedule)
    (asked : Metadata → MethodKey → Prop) :
    Booked (fresh config load catalog signatures schedule) asked
      (fresh config load catalog signatures schedule) where
  toRecorded := recorded_fresh config load catalog signatures schedule
  length := rfl
  registered n record registration h := by cases h
  tags := by split <;> rfl

variable {methods keys : List MethodKey} {summary : PassSummary}
  {passes : List (Metadata × List MethodKey)}

theorem Booked.analyzeAll (hbooked : Booked origin asked s) (hsound : s.Sound)
    (hsettings : SameSettings origin s) (hasked : ∀ key ∈ keys, asked metadata key)
    (summary : PassSummary) : Booked origin asked (analyzeAll metadata keys summary s).2 := by
  induction keys generalizing summary s with
  | nil => exact hbooked
  | cons key keys ih =>
    have hanalyzes := analyzes_analyzeMethod s metadata key
    exact ih (hbooked.analyze hsound hsettings (hasked key List.mem_cons_self) hanalyzes)
      (hanalyzes.sound hsound) (hsettings.trans hanalyzes.sameSettings)
      (fun other hother => hasked other (List.mem_cons_of_mem _ hother)) _

theorem Booked.passInTurn (hbooked : Booked origin asked s) (hsound : s.Sound)
    (hsettings : SameSettings origin s) (hasked : ∀ key ∈ methods, asked metadata key) :
    Booked origin asked (s.passInTurn metadata methods).2 := by
  have hbegun : Booked origin asked { s with passes := s.passes + 1 } :=
    ⟨⟨hbooked.entries, hbooked.distinct⟩, hbooked.length, hbooked.registered, hbooked.tags⟩
  unfold Session.passInTurn
  split
  · exact hbegun.analyzeAll ⟨hsound.store, hsound.graph⟩
      ⟨hsettings.config, hsettings.load, hsettings.catalog, hsettings.safeCalls⟩
      (fun key hkey => hasked key (mem_distinctKeys_iff.mp hkey)) _
  · exact hbegun

theorem Booked.runInTurn (hbooked : Booked origin asked s) (hsound : s.Sound)
    (hsettings : SameSettings origin s)
    (hasked : ∀ pass ∈ passes, ∀ key ∈ pass.2, asked pass.1 key) :
    Booked origin asked (runInTurn passes s).2 := by
  induction passes generalizing s with
  | nil => exact hbooked
  | cons pass passes ih =>
    have hturns : Evolves (fun _ _ => True) { s with passes := s.passes + 1 }
      (s.passInTurn pass.1 pass.2).2 := evolves_passInTurn s fun _ _ => trivial
    exact ih (hbooked.passInTurn hsound hsettings (hasked pass List.mem_cons_self))
      (hturns.sound ⟨hsound.store, hsound.graph⟩)
      (hsettings.trans (sameSettings_passInTurn s pass.1 pass.2))
      fun pass' hpass' => hasked pass' (List.mem_cons_of_mem _ hpass')

/-! ## Summaries -/

/-- What is counted as resolved in the course of some analyses is what was recorded. -/
theorem analyzeAll_resolved (metadata : Metadata) (keys : List MethodKey) (summary : PassSummary)
    (s : Session) :
    (analyzeAll metadata keys summary s).1.resolved + s.resolutions.length =
      summary.resolved + (analyzeAll metadata keys summary s).2.resolutions.length := by
  induction keys generalizing summary s with
  | nil => rfl
  | cons key keys ih =>
    rw [analyzeAll_cons]
    have hrest := ih (summary.add key (s.analyzeMethod metadata key).1)
      (s.analyzeMethod metadata key).2
    have hturn : (summary.add key (s.analyzeMethod metadata key).1).resolved +
        s.resolutions.length =
        summary.resolved + (s.analyzeMethod metadata key).2.resolutions.length := by
      have hanalyzes := analyzes_analyzeMethod s metadata key
      generalize s.analyzeMethod metadata key = turn at hanalyzes
      obtain ⟨outcome, s'⟩ := turn
      cases hanalyzes with
      | skipped _ | failed _ _ => rfl
      | analyzed _ _ _ _ =>
        simp only [PassSummary.add, List.length_append, List.length_map]
        omega
    omega

theorem analyzeAll_total (metadata : Metadata) (keys : List MethodKey) (summary : PassSummary)
    (s : Session) :
    (analyzeAll metadata keys summary s).1.total = summary.total + keys.length := by
  induction keys generalizing summary s with
  | nil => rfl
  | cons key keys ih =>
    have hadd : ∀ outcome, (summary.add key outcome).total = summary.total + 1 := by
      intro outcome
      cases outcome <;> simp only [PassSummary.add, PassSummary.total, List.length_append,
        List.length_singleton] <;> omega
    rw [analyzeAll_cons, ih, hadd, List.length_cons]
    omega

theorem length_distinctKeys (methods : List MethodKey) :
    (distinctKeys methods).length = methods.toFinset.card := by
  rw [← List.toFinset_card_of_nodup (nodup_distinctKeys methods)]
  congr 1
  ext key
  simp only [List.mem_toFinset, mem_distinctKeys_iff]

theorem passInTurn_resolved (s : Session) (metadata : Metadata) (methods : List MethodKey) :
    (s.passInTurn metadata methods).1.resolved + s.resolutions.length =
      (s.passInTurn metadata methods).2.resolutions.length := by
  rw [passInTurn]
  split
  · exact (analyzeAll_resolved _ _ _ _).trans (Nat.zero_add _)
  · exact Nat.zero_add _

/-- A pass accounts for each method once, or for each mention of one if calls are not resolved. -/
theorem passInTurn_total (s : Session) (metadata : Metadata) (methods : List MethodKey) :
    (s.passInTurn metadata methods).1.total =
      if s.config.enabled then methods.toFinset.card else methods.length := by
  rw [passInTurn]
  split
  · rw [analyzeAll_total, length_distinctKeys]
    exact Nat.zero_add _
  · simp [PassSummary.total]

theorem runInTurn_resolved (passes : List (Metadata × List MethodKey)) (s : Session) :
    ((runInTurn passes s).1.map PassSummary.resolved).sum + s.resolutions.length =
      (runInTurn passes s).2.resolutions.length := by
  induction passes generalizing s with
  | nil => exact Nat.zero_add _
  | cons pass passes ih =>
    obtain ⟨metadata, methods⟩ := pass
    have hpass := passInTurn_resolved s metadata methods
    have hrest := ih (s.passInTurn metadata methods).2
    simp only [runInTurn_cons, List.map_cons, List.sum_cons]
    omega

theorem runInTurn_total (passes : List (Metadata × List MethodKey)) (s : Session) :
    List.Forall₂ (fun summary pass => summary.total =
      if s.config.enabled then pass.2.toFinset.card else pass.2.length) (runInTurn passes s).1
      passes := by
  induction passes generalizing s with
  | nil => exact .nil
  | cons pass passes ih =>
    refine .cons (passInTurn_total s pass.1 pass.2) ?_
    have hrest := ih (s.passInTurn pass.1 pass.2).2
    rwa [(sameSettings_passInTurn s pass.1 pass.2).config] at hrest

/--
The books of a session agree after any passes in turn, and if methods are analysed at the same time,
they are such books in another order. The summaries of the passes add up to them: every record is
counted as resolved once, and every pass accounts for each of its methods once.
-/
theorem runAll_booked (config : Config) (load : Loader) (catalog : Catalog)
    (signatures : List CallSignature) (schedule : Schedule)
    (passes : List (Metadata × List MethodKey)) :
    (config.parallel = false →
      Booked (fresh config load catalog signatures schedule)
        (fun metadata key => ∃ methods, (metadata, methods) ∈ passes ∧ key ∈ methods)
        (runAll passes (fresh config load catalog signatures schedule)).2) ∧
      (∃ books, Booked (fresh config load catalog signatures schedule)
          (fun metadata key => ∃ methods, (metadata, methods) ∈ passes ∧ key ∈ methods) books ∧
        Rearranged books (runAll passes (fresh config load catalog signatures schedule)).2) ∧
      ((runAll passes (fresh config load catalog signatures schedule)).1.map
          PassSummary.resolved).sum =
        (runAll passes (fresh config load catalog signatures schedule)).2.resolutions.length ∧
      List.Forall₂ (fun summary pass => summary.total =
          if config.enabled then pass.2.toFinset.card else pass.2.length)
        (runAll passes (fresh config load catalog signatures schedule)).1 passes := by
  have hbooked := (booked_fresh config load catalog signatures schedule
    fun metadata key => ∃ methods, (metadata, methods) ∈ passes ∧ key ∈ methods).runInTurn
    (sound_fresh config load catalog signatures schedule) ⟨rfl, rfl, rfl, rfl⟩
    fun pass hpass key hkey => ⟨pass.2, hpass, hkey⟩
  obtain ⟨hsummaries, hrearranged⟩ :=
    (Rearranged.refl (fresh config load catalog signatures schedule)).runAll rfl
      (orderly_fresh config load catalog signatures schedule) passes
  refine ⟨fun hsequential => ?_, ⟨_, hbooked, hrearranged⟩, ?_, ?_⟩
  · rw [runAll_of_sequential hsequential]
    exact hbooked
  · rw [hsummaries, hrearranged.records.length_eq]
    exact runInTurn_resolved passes (fresh config load catalog signatures schedule)
  · rw [hsummaries]
    exact runInTurn_total passes (fresh config load catalog signatures schedule)

end Session

end CallFold
