import ProxyCache.App.BackgroundRules
import ProxyCache.App.CallRules
import ProxyCache.Theorems.FileEvidence
import ProxyCache.Theorems.Readiness

/-!
# From discovery to extraction

Discovery asks for native metadata and hands what it cannot settle to an extraction job; the
extraction job settles the rest. Between them a page has the discovered marker only, and what is
left to do is in the queue.

* `jobs_hand_over` — the ways through the two jobs: a commit that leaves something to extract is
  followed by the job for exactly the body that it stored, every other commit is final;
* `readiness_earned` — where a page is marked as ready, the files that were selected from it are
  settled: each is advertised on evidence, cannot be extracted, or extraction has failed.
-/

namespace ProxyCache.Theorems.HandOver

open ProxyCache.Lib ProxyCache.Python ProxyCache.App
open ProxyCache.Theorems.FileEvidence

variable {s : Site} {pid : ℕ} {canonical body : Str} {isJson : Bool}

/-! ## Pages -/

/-- Some files of a list were replaced, each by one that `R` allows. -/
structure Covers (R : File → File → Prop) (files : List File) (done : List ℕ)
    (newFiles : List File) : Prop where
  length : newFiles.length = files.length
  replaced : ∀ i ∈ done, ∀ f', newFiles[i]? = some f' → ∃ f, files[i]? = some f ∧ R f f'
  others : ∀ i, i ∉ done → newFiles[i]? = files[i]?

/-- What a job makes of a page. -/
structure PageWork where
  project : Project
  candidates : List ℕ
  newFiles : List File
  completed : Str

/-- The selected files were replaced as `R` allows, and the page says so. -/
structure Worked (s : Site) (canonical body : Str) (isJson : Bool) (R : File → File → Prop)
    (w : PageWork) : Prop where
  parsed : parseProjectBody s canonical body isJson = .ok w.project
  selected : extractionCandidateIndexes s w.project.files = .ok w.candidates
  covers : Covers R w.project.files w.candidates w.newFiles
  completes : if filesChanged w.newFiles w.project.files = true then
    advertiseMetadata s body isJson w.newFiles = .ok w.completed else w.completed = body

/-- A file needs nothing more. -/
inductive Settled (s : Site) (log : List Evidence) (f : File) : File → Prop
  | advertised : needsProbe f = false → Settled s log f f
  | resolved {fileUrl : Str} {resolution : MetadataResolution} : f.url.asStr = .ok fileUrl →
      Backed s fileUrl log resolution → Settled s log f (applyResolution f (some resolution))
  | unextractable : canExtract s f = .ok false → Settled s log f f
  | exhausted {fileUrl wheelSha256 : Str} : f.url.asStr = .ok fileUrl →
      wheelSha256Of s f = .ok wheelSha256 → Exhausted s fileUrl (some wheelSha256) log →
      Settled s log f f

/-- The conditional write of a commit that is bound to `body` and places `completed`. -/
def IsCommit (s : Site) (canonical body : Str) (isJson changed ready : Bool) (completed : Str)
    (expected : List (Str × Option Str)) (values : List Write) : Prop :=
  ∃ part boundTtl markerTtl, (part = .body isJson ∨ part = .stale isJson) ∧
    (projectKey canonical part, some body) ∈ expected ∧
    values = commitBatch s canonical isJson changed ready part boundTtl markerTtl completed

/-! ## The ways through the jobs -/

/-- The ways through discovery. -/
inductive Discovery (s : Site) (canonical body : Str) (isJson : Bool) : List Evidence → Prop
  | idle {log : List Evidence} : Still log → Discovery s canonical body isJson log
  /-- The page was discovered before, and extraction is still to be done. -/
  | requeued {log : List Evidence} : Still log →
      Evidence.read (projectKey canonical (.metadataDiscovered isJson)) (some (bodyDigest body)) ∈
        log →
      Discovery s canonical body isJson
        (log ++ [.scheduled (.extract canonical isJson (bodyDigest body))])
  /-- Nothing is left to extract. -/
  | finished {log : List Evidence} {w : PageWork} {expected : List (Str × Option Str)}
      {values : List Write} : Still log → Worked s canonical body isJson (Settled s log) w →
      IsCommit s canonical body isJson (filesChanged w.newFiles w.project.files) true w.completed
        expected values →
      Discovery s canonical body isJson (log ++ [.committed expected values])
  /-- What is left is handed to the extraction of the page that was stored. -/
  | handedOver {log : List Evidence} {w : PageWork} {expected : List (Str × Option Str)}
      {values : List Write} : Still log →
      Worked s canonical body isJson (Probed s false true log) w →
      IsCommit s canonical body isJson (filesChanged w.newFiles w.project.files) false w.completed
        expected values →
      Discovery s canonical body isJson (log ++ [.committed expected values,
        .scheduled (.extract canonical isJson (bodyDigest w.completed))])

/-- The ways through an extraction job. -/
inductive Extraction (s : Site) (canonical : Str) (isJson : Bool) (digest : Str) :
    List Evidence → Prop
  | idle {log : List Evidence} : Still log → Extraction s canonical isJson digest log
  /-- The body with the digest was found, and its selected files are settled. -/
  | finished {log : List Evidence} {body : Str} {part : ProjectPart} {w : PageWork}
      {expected : List (Str × Option Str)} {values : List Write} : Still log →
      bodyDigest body = digest → (part = .body isJson ∨ part = .stale isJson) →
      Evidence.read (projectKey canonical part) (some body) ∈ log →
      Worked s canonical body isJson (Settled s log) w →
      IsCommit s canonical body isJson (filesChanged w.newFiles w.project.files) true w.completed
        expected values →
      Extraction s canonical isJson digest (log ++ [.committed expected values])

/-- The ways through a background job. -/
def JobCourse (s : Site) : Job → List Evidence → Prop
  | .enrich canonical body isJson, log => Discovery s canonical body isJson log
  | .extract canonical isJson digest, log => Extraction s canonical isJson digest log

/-! ## Replaced files -/

section Files

variable {R R' : File → File → Prop} {files newFiles probed : List File} {done indexes : List ℕ}

theorem Covers.refl (R : File → File → Prop) (files : List File) : Covers R files [] files :=
  ⟨rfl, nofun, fun _ _ => rfl⟩

theorem Covers.imp (h : Covers R files done newFiles) (himp : ∀ f f', R f f' → R' f f') :
    Covers R' files done newFiles := by
  refine ⟨h.length, fun i hi f' hf' => ?_, h.others⟩
  obtain ⟨f, hf, hR⟩ := h.replaced i hi f' hf'
  exact ⟨f, hf, himp f f' hR⟩

theorem Covers.congr {done' : List ℕ} (h : Covers R files done newFiles)
    (hsame : ∀ i, i ∈ done' ↔ i ∈ done) : Covers R files done' newFiles :=
  ⟨h.length, fun i hi => h.replaced i ((hsame i).mp hi),
    fun i hi => h.others i fun hmem => hi ((hsame i).mpr hmem)⟩

/-- One more file is replaced. -/
theorem Covers.set {j : ℕ} {f f' : File} (h : Covers R files done newFiles)
    (hf : files[j]? = some f) (hR : R f f') : Covers R files (j :: done) (newFiles.set j f') := by
  refine ⟨by rw [List.length_set, h.length], fun i hi g hg => ?_, fun i hi => ?_⟩
  · by_cases hij : i = j
    · subst hij
      have hlt : i < newFiles.length := by
        rw [h.length]
        exact (List.getElem?_eq_some_iff.mp hf).1
      rw [List.getElem?_set_self hlt] at hg
      exact ⟨f, hf, Option.some.inj hg ▸ hR⟩
    · rw [List.getElem?_set_ne (Ne.symm hij)] at hg
      exact h.replaced i ((List.mem_cons.mp hi).resolve_left hij) g hg
  · have hij : j ≠ i := fun heq => hi (heq ▸ List.mem_cons_self)
    rw [List.getElem?_set_ne hij]
    exact h.others i fun hmem => hi (List.mem_cons_of_mem _ hmem)

/-- The probed files replace the ones they were made of. -/
theorem Covers.replace (h : Covers R files done newFiles) (hvalid : ∀ i ∈ indexes, i < files.length)
    (hprobed : List.Forall₂ R (filesAt files indexes) probed) :
    Covers R files (indexes ++ done) (replaceFiles newFiles indexes probed) := by
  induction indexes generalizing probed newFiles done with
  | nil => exact h
  | cons j indexes ih =>
    obtain ⟨hj, hvalid⟩ := List.forall_mem_cons.mp hvalid
    have hf : files[j]? = some files[j] := List.getElem?_eq_getElem hj
    have hfiles : filesAt files (j :: indexes) = files[j] :: filesAt files indexes := by
      rw [filesAt, List.filterMap_cons, hf]
      rfl
    rw [hfiles] at hprobed
    cases hprobed with
    | cons hR hrest =>
      refine (ih (h.set hf hR) hvalid hrest).congr fun i => ?_
      simp only [List.mem_append, List.mem_cons]
      tauto

/-- The selected indexes are those of files. -/
theorem candidates_valid {candidates : List ℕ}
    (h : extractionCandidateIndexes s files = .ok candidates) : ∀ i ∈ candidates,
      i < files.length := by
  intro i hi
  unfold extractionCandidateIndexes at h
  obtain ⟨ranked, hranked, h⟩ := ok_of_bind h
  obtain ⟨-, rfl⟩ := rankedFiles_eq_ok_iff.mp hranked
  obtain rfl := Except.ok.inj h
  rw [List.mem_insertionSort] at hi
  obtain ⟨⟨v, j⟩, hmem, rfl⟩ := List.mem_map.mp hi
  obtain ⟨f, hf, -⟩ := mem_eligibleItems.mp (mem_newestFirst.mp (List.mem_of_mem_take hmem))
  exact (List.getElem?_eq_some_iff.mp hf).1

/-- Nothing changed where nothing was replaced. -/
theorem filesChanged_self (files : List File) : filesChanged files files = false := by
  unfold filesChanged
  rw [List.any_eq_false]
  intro pair hpair
  obtain ⟨i, hi, rfl⟩ := List.mem_iff_getElem.mp hpair
  simp

/-- A scan that finds nothing has seen all files. -/
theorem canExtract_of_scan {wanted : File → Bool}
    (h : anyExtractable s wanted files = .ok false) :
    ∀ f ∈ files, wanted f = true → canExtract s f = .ok false := by
  induction files with
  | nil => exact nofun
  | cons g files ih =>
    rw [anyExtractable] at h
    intro f hf hwanted
    cases hg : wanted g with
    | false =>
      rw [hg, if_neg Bool.false_ne_true] at h
      rcases List.mem_cons.mp hf with rfl | hf
      · rw [hg] at hwanted
        cases hwanted
      · exact ih h f hf hwanted
    | true =>
      rw [hg, if_pos rfl] at h
      obtain ⟨extractable, hextract, h⟩ := ok_of_bind h
      cases extractable with
      | true => cases h
      | false =>
        rcases List.mem_cons.mp hf with rfl | hf
        · exact hextract
        · exact ih h f hf hwanted

theorem mem_filesAt {i : ℕ} {f : File} (hi : i ∈ indexes) (hf : files[i]? = some f) :
    f ∈ filesAt files indexes := List.mem_filterMap.mpr ⟨i, hi, hf⟩

/-- A file that is not resolved by discovery is settled if it cannot be extracted. -/
theorem settled_of_unextractable {log : List Evidence} {f f' : File} {a b : Bool}
    (h : Probed s a b log f f') (hnot : needsProbe f' = true → canExtract s f' = .ok false) :
    Settled s log f f' := by
  cases h with
  | advertised hneeds => exact .advertised hneeds
  | resolved hurl hbacked => exact .resolved hurl hbacked
  | unresolved hurl hsha hextract _ =>
    cases hneeds : needsProbe f with
    | false => exact .advertised hneeds
    | true => exact .unextractable (hnot hneeds)

/-- A file that is not resolved by extraction is settled. -/
theorem settled_of_probed {log : List Evidence} {f f' : File} (h : Probed s true false log f f') :
    Settled s log f f' := by
  cases h with
  | advertised hneeds => exact .advertised hneeds
  | resolved hurl hbacked => exact .resolved hurl hbacked
  | @unresolved fileUrl sha extractable hurl hsha hextract hexhausted =>
    cases extractable with
    | false => exact .unextractable hextract
    | true => exact .exhausted hurl hsha (hexhausted rfl rfl rfl)

theorem Settled.mono {log log' : List Evidence} {f f' : File} (h : Settled s log f f')
    (hsub : log ⊆ log') : Settled s log' f f' := by
  cases h with
  | advertised hneeds => exact .advertised hneeds
  | resolved hurl hbacked => exact .resolved hurl (hbacked.mono hsub)
  | unextractable hnot => exact .unextractable hnot
  | exhausted hurl hsha hexhausted => exact .exhausted hurl hsha (hexhausted.mono hsub)

theorem Worked.mono {w : PageWork} (h : Worked s canonical body isJson R w)
    (himp : ∀ f f', R f f' → R' f f') : Worked s canonical body isJson R' w :=
  ⟨h.parsed, h.selected, h.covers.imp himp, h.completes⟩

end Files

/-! ## Commits -/

/-- What a commit leaves in the log. -/
inductive CommitCourse (s : Site) (canonical body : Str) (isJson changed ready : Bool)
    (renders : Str → Prop) : List Evidence → Except Raised (Option Str) → Prop
  | refused {log : List Evidence} {result : Except Raised (Option Str)} : Still log →
      (∀ completed, result ≠ .ok (some completed)) →
      CommitCourse s canonical body isJson changed ready renders log result
  | committed {log : List Evidence} {completed : Str} {expected : List (Str × Option Str)}
      {values : List Write} : Still log → renders completed →
      IsCommit s canonical body isJson changed ready completed expected values →
      CommitCourse s canonical body isJson changed ready renders
        (log ++ [.committed expected values]) (.ok (some completed))

theorem emits_commitBound {before : List Evidence} {completed : Str} {changed ready : Bool}
    {renders : Str → Prop} {part : ProjectPart} {expected : List (Str × Option Str)}
    (hbefore : Still before) (hrenders : renders completed)
    (hpart : part = .body isJson ∨ part = .stale isJson)
    (hbound : (projectKey canonical part, some body) ∈ expected) :
    (commitBound s canonical isJson completed changed ready part expected).Emits evidence
      fun log result => CommitCourse s canonical body isJson changed ready renders (before ++ log)
        result := by
  unfold commitBound
  rw [Prog.op_bind]
  intro ttl
  cases ttl with
  | none =>
    show CommitCourse s canonical body isJson changed ready renders (before ++ []) (.ok none)
    rw [List.append_nil]
    exact .refused hbefore nofun
  | some boundTtl =>
    dsimp only
    split
    · show CommitCourse s canonical body isJson changed ready renders (before ++ [])
        (.error .valueError)
      rw [List.append_nil]
      exact .refused hbefore nofun
    · intro committed
      cases committed with
      | false =>
        show CommitCourse s canonical body isJson changed ready renders (before ++ []) (.ok none)
        rw [List.append_nil]
        exact .refused hbefore nofun
      | true => exact .committed hbefore hrenders ⟨part, boundTtl, _, hpart, hbound, rfl⟩

/-- The locked part of a commit is bound to the body that it finds. -/
theorem emits_commitLocked {completed : Str} {changed ready : Bool} {renders : Str → Prop}
    (hrenders : renders completed) :
    (withLock pid (fillLockKey canonical)
      (commitLocked s canonical body isJson completed changed ready)).Emits evidence
      (CommitCourse s canonical body isJson changed ready renders) := by
  have hlocked : (commitLocked s canonical body isJson completed changed ready).Emits evidence
      (CommitCourse s canonical body isJson changed ready renders) := by
    unfold commitLocked cacheGetTwo
    intro values
    have hstill := still_reads
      [projectKey canonical (.body isJson), projectKey canonical (.stale isJson)] values
    show Prog.Emits evidence (if values.getD 0 none = some body then _
      else if values.getD 0 none = none ∧ values.getD 1 none = some body then _ else _) _
    split
    · exact emits_commitBound hstill hrenders (.inl rfl) List.mem_cons_self
    split
    · exact emits_commitBound hstill hrenders (.inr rfl)
        (List.mem_cons_of_mem _ List.mem_cons_self)
    · show CommitCourse s canonical body isJson changed ready renders (_ ++ []) (.ok none)
      rw [List.append_nil]
      exact .refused hstill nofun
  unfold withLock
  rw [Prog.op_bind]
  intro _
  refine Prog.Emits.bind hlocked fun log result h _ => ?_
  show CommitCourse s canonical body isJson changed ready renders (log ++ []) result
  rwa [List.append_nil]

theorem emits_commitProjectEnrichment (newFiles : List File) (changed ready : Bool) :
    (commitProjectEnrichment s pid canonical body isJson newFiles changed ready).Emits evidence
      (CommitCourse s canonical body isJson changed ready fun completed =>
        if changed = true then advertiseMetadata s body isJson newFiles = .ok completed
        else completed = body) := by
  unfold commitProjectEnrichment
  split
  · rw [Prog.op_bind]
    intro _
    split
    · exact .refused still_nil nofun
    · next completed hrender =>
      exact emits_commitLocked hrender
  · exact emits_commitLocked rfl

/-! ## Discovery -/

theorem Discovery.idle_nil {log : List Evidence} (h : Still log) :
    Discovery s canonical body isJson (log ++ []) := .idle (by rwa [List.append_nil])

theorem emits_discover {before : List Evidence} (hbefore : Still before) {project : Project}
    {candidates : List ℕ} (hparsed : parseProjectBody s canonical body isJson = .ok project)
    (hselected : extractionCandidateIndexes s project.files = .ok candidates) :
    (discover s pid canonical body isJson project candidates).Emits evidence
      fun log _ => Discovery s canonical body isJson (before ++ log) := by
  unfold discover
  refine Prog.Emits.bind (learns_probeAll _) fun learned result ⟨hlearned, hprobed⟩ => ?_
  have hstill : Still (before ++ learned) := hbefore.append hlearned
  simp only [← List.append_assoc]
  cases result with
  | error e => exact .idle_nil hstill
  | ok probed =>
    dsimp only
    have hcovers := (Covers.refl (Probed s false true learned) project.files).replace
      (candidates_valid hselected) (hprobed probed rfl)
    rw [List.append_nil] at hcovers
    have hlater : ∀ f f', Probed s false true learned f f' →
        Probed s false true (before ++ learned) f f' :=
      fun f f' h => h.mono (List.subset_append_right before learned)
    split
    · exact .idle_nil hstill
    next needsExtraction hscan =>
    refine (emits_commitProjectEnrichment _ _ _).bind fun log result hcommit => ?_
    cases hcommit with
    | refused hlog hnone =>
      have hidle : Discovery s canonical body isJson (before ++ learned ++ (log ++ [])) := by
        rw [← List.append_assoc]
        exact .idle_nil (hstill.append hlog)
      rcases result with e | _ | completed
      · exact hidle
      · exact hidle
      · exact absurd rfl (hnone completed)
    | @committed log completed expected values hlog hrenders hcommit =>
      have hworked : ∀ R, (∀ f f', Probed s false true (before ++ learned ++ log) f f' → R f f') →
          Worked s canonical body isJson R
            ⟨project, candidates, replaceFiles project.files candidates probed, completed⟩ := by
        intro R himp
        refine ⟨hparsed, hselected, hcovers.imp fun f f' h => himp f f' ?_, hrenders⟩
        exact (hlater f f' h).mono (List.subset_append_left _ log)
      cases needsExtraction with
      | true =>
        intro _
        show Discovery s canonical body isJson (before ++ learned ++ (log ++
          [.committed expected values] ++ [.scheduled _]))
        have hlog' := Discovery.handedOver (hstill.append hlog) (hworked _ fun _ _ h => h) hcommit
        simpa only [List.append_assoc, List.cons_append, List.nil_append] using hlog'
      | false =>
        show Discovery s canonical body isJson (before ++ learned ++ (log ++
          [.committed expected values] ++ []))
        have hunextractable : ∀ i ∈ candidates, ∀ f',
            (replaceFiles project.files candidates probed)[i]? = some f' →
            needsProbe f' = true → canExtract s f' = .ok false :=
          fun i hi f' hf' => canExtract_of_scan hscan f' (mem_filesAt hi hf')
        have hsettled : Covers (Settled s (before ++ learned ++ log)) project.files candidates
            (replaceFiles project.files candidates probed) := by
          refine ⟨hcovers.length, fun i hi f' hf' => ?_, hcovers.others⟩
          obtain ⟨f, hf, hfile⟩ := hcovers.replaced i hi f' hf'
          refine ⟨f, hf, ?_⟩
          exact settled_of_unextractable
            ((hlater f f' hfile).mono (List.subset_append_left _ log)) (hunextractable i hi f' hf')
        have hlog' := Discovery.finished (hstill.append hlog)
          (w := ⟨project, candidates, replaceFiles project.files candidates probed, completed⟩)
          ⟨hparsed, hselected, hsettled, hrenders⟩ hcommit
        simpa only [List.append_assoc, List.append_nil] using hlog'

/-- The ways through discovery. -/
theorem emits_enrich : (enrich s pid canonical body isJson).Emits evidence
    fun log _ => Discovery s canonical body isJson log := by
  unfold enrich
  rw [Prog.op_bind]
  intro _
  show Prog.Emits evidence _ fun log _ => Discovery s canonical body isJson log
  split
  · exact .idle still_nil
  next project hparsed =>
  split
  · exact .idle still_nil
  next candidates hcandidates =>
  have hselected := (discoveryCandidates_eq_ok.mp hcandidates).1
  refine Prog.Emits.bind (learns_cacheGet _) fun before discovered ⟨hstill, hread⟩ => ?_
  split
  · next hknown =>
    split
    · exact .idle_nil hstill
    · intro _
      show Discovery s canonical body isJson (before ++ [.scheduled _])
      exact .requeued hstill (hread _ hknown)
    · next hscan =>
      -- nothing can be extracted, so the page is final as it is
      refine (emits_commitProjectEnrichment _ _ _).bind fun log result hcommit => ?_
      show Discovery s canonical body isJson (before ++ (log ++ []))
      rw [List.append_nil]
      cases hcommit with
      | refused hlog _ => exact .idle (hstill.append hlog)
      | @committed log completed expected values hlog hrenders hcommit =>
        have hsettled : Covers (Settled s (before ++ log)) project.files candidates
            project.files := by
          refine ⟨rfl, fun i hi f hf => ⟨f, hf, .unextractable ?_⟩, fun _ _ => rfl⟩
          exact canExtract_of_scan hscan f (mem_filesAt hi hf) rfl
        have hunchanged := filesChanged_self project.files
        rw [← List.append_assoc]
        refine .finished (hstill.append hlog)
          (w := ⟨project, candidates, project.files, completed⟩)
          ⟨hparsed, hselected, hsettled, ?_⟩ ?_
        · rw [hunchanged]
          exact hrenders
        · rw [hunchanged]
          exact hcommit
  · exact emits_discover hstill hparsed hselected

/-! ## Extraction -/

/-- The batches of an extraction job, each over files that are not replaced yet. -/
theorem learns_extractBatches {files : List File} {batches : List (List ℕ)}
    (hvalid : ∀ i ∈ batches.flatten, i < files.length) {before : List Evidence} {done : List ℕ}
    {newFiles : List File} (hcovers : Covers (Probed s true false before) files done newFiles) :
    Learns (fun log result => ∀ all, result = .ok all →
      Covers (Probed s true false (before ++ log)) files (batches.flatten ++ done) all)
      (extractBatches s pid files batches newFiles) := by
  induction batches generalizing before done newFiles with
  | nil =>
    refine learns_ret fun all hall => ?_
    obtain rfl := Except.ok.inj hall
    rwa [List.append_nil]
  | cons batch batches ih =>
    rw [List.flatten_cons] at hvalid ⊢
    have hbatch : ∀ i ∈ batch, i < files.length :=
      fun i hi => hvalid i (List.mem_append_left _ hi)
    have hrest : ∀ i ∈ batches.flatten, i < files.length :=
      fun i hi => hvalid i (List.mem_append_right _ hi)
    unfold extractBatches
    rw [Prog.op_bind]
    intro _
    refine Learns.bind (learns_probeAll _) fun learned probed hprobed => ?_
    cases probed with
    | error e => exact learns_ret fun all hall => by cases hall
    | ok probed =>
      have hearlier := hcovers.imp fun f f' h => h.mono (List.subset_append_left before learned)
      have hlater := (hprobed probed rfl).imp fun f f' h =>
        Probed.mono h (List.subset_append_right before learned)
      refine (ih hrest (hearlier.replace hbatch hlater)).mono fun log result hall all heq => ?_
      have hall' := hall all heq
      rw [List.append_assoc] at hall'
      refine hall'.congr fun i => ?_
      simp only [List.mem_append]
      tauto

theorem emits_extractBody {before : List Evidence} {digest : Str} {part : ProjectPart}
    (hbefore : Still before) (hdigest : bodyDigest body = digest)
    (hpart : part = .body isJson ∨ part = .stale isJson)
    (hread : Evidence.read (projectKey canonical part) (some body) ∈ before) :
    (extractBody s pid canonical body isJson).Emits evidence
      fun log _ => Extraction s canonical isJson digest (before ++ log) := by
  have hidle : ∀ {log : List Evidence}, Still log →
      Extraction s canonical isJson digest (before ++ (log ++ [])) := by
    intro log hlog
    rw [List.append_nil]
    exact .idle (hbefore.append hlog)
  unfold extractBody
  rw [Prog.op_bind]
  intro _
  show Prog.Emits evidence _ fun log _ => Extraction s canonical isJson digest (before ++ log)
  split
  · exact @hidle [] still_nil
  next project hparsed =>
  split
  · exact @hidle [] still_nil
  next candidates hselected =>
  have hpieces : (pieces (max 1 s.settings.metadataExtractConcurrency.toNat) candidates.length
      candidates).flatten = candidates := flatten_pieces (by omega) le_rfl
  have hnothing : Covers (Probed s true false []) project.files [] project.files := .refl _ _
  refine Prog.Emits.bind (learns_extractBatches
    (by rw [hpieces]; exact candidates_valid hselected) hnothing)
    fun learned result ⟨hlearned, hcovers⟩ => ?_
  cases result with
  | error e => exact hidle hlearned
  | ok newFiles =>
    have hcovers := hcovers newFiles rfl
    rw [hpieces, List.append_nil, List.nil_append] at hcovers
    refine (emits_commitProjectEnrichment _ _ _).bind fun log result hcommit => ?_
    show Extraction s canonical isJson digest (before ++ (learned ++ (log ++ [])))
    rw [List.append_nil]
    cases hcommit with
    | refused hlog _ => exact .idle (hbefore.append (hlearned.append hlog))
    | @committed log completed expected values hlog hrenders hcommit =>
      have hsub : learned ⊆ before ++ (learned ++ log) :=
        fun x hx => List.mem_append_right _ (List.mem_append_left _ hx)
      rw [← List.append_assoc learned, ← List.append_assoc before]
      exact .finished (hbefore.append (hlearned.append hlog)) hdigest hpart
        (List.mem_append_left _ hread) (w := ⟨project, candidates, newFiles, completed⟩)
        ⟨hparsed, hselected, hcovers.imp fun f f' h => settled_of_probed (h.mono hsub), hrenders⟩
        hcommit

/-- The ways through an extraction job. -/
theorem emits_extractProjectAfterIdle {digest : Str} :
    (extractProjectAfterIdle s pid canonical isJson digest).Emits evidence
      fun log _ => Extraction s canonical isJson digest log := by
  unfold extractProjectAfterIdle
  rw [Prog.op_bind]
  intro _
  refine Prog.Emits.bind (learns_cacheGetTwo _ _)
    fun before ⟨current, stale⟩ ⟨hstill, hcurrent, hstale⟩ => ?_
  dsimp only
  split
  · next body hbody =>
    obtain ⟨rfl, hdigest⟩ := Option.filter_eq_some_iff.mp hbody
    exact emits_extractBody hstill (of_decide_eq_true hdigest) (.inl rfl) (hcurrent body rfl)
  · next body hnone hbody =>
    obtain ⟨rfl, hdigest⟩ := Option.filter_eq_some_iff.mp hbody
    exact emits_extractBody hstill (of_decide_eq_true hdigest) (.inr rfl) (hstale body rfl)
  · show Extraction s canonical isJson digest (before ++ [])
    rw [List.append_nil]
    exact .idle hstill

/-! ## Jobs -/

theorem emits_job (job : Job) :
    (job.prog s pid).Emits evidence fun log _ => JobCourse s job log := by
  cases job with
  | enrich canonical body isJson => exact emits_enrich
  | extract canonical isJson digest => exact emits_extractProjectAfterIdle

theorem emits_background (job : Job) :
    ((ServiceTask.background job).prog s pid).Emits evidence fun log _ => JobCourse s job log := by
  refine (emits_job job).bind fun log result h => ?_
  show JobCourse s job (log ++ [])
  rwa [List.append_nil]

/-- **Hand-over.** In every run of the service, a background job that has ended took one of the ways
through it: whatever it leaves to extract is handed over with the body that it stored. -/
theorem jobs_hand_over {B : Backend} {upstream : Upstream} {t : ℕ} {job : Job} {result : TaskResult}
    {c₀ c : Config Op Ret World (ℕ × ServiceTask) TaskResult}
    {evs : List (Event Op Ret (ℕ × ServiceTask))} (hinit : (deployment s B upstream).Init c₀)
    (hrun : (deployment s B upstream).Run c₀ evs c)
    (htask : c.task t = some ((pid, .background job), .ret result)) :
    JobCourse s job (picked evidence (history t evs)) :=
  hrun.emits_ret hinit htask (emits_background job)

theorem jobs_hand_over_page :
    ∃ (c₀ c : Config Op Ret World (ℕ × ServiceTask) TaskResult) (result : TaskResult)
      (evs : List (Event Op Ret (ℕ × ServiceTask))),
      Readiness.pageService.Init c₀ ∧ Readiness.pageService.Run c₀ evs c ∧
        c.task 1 = some (Readiness.pageEnrichment, .ret result) ∧
        Discovery Readiness.pageSite Readiness.one Readiness.page true
          (picked evidence (history 1 evs)) := by
  obtain ⟨⟨evs, evs', w⟩, hrun, -⟩ := (Option.any_eq_true _ _).mp Readiness.fillAndMark_spec
  simp only [Readiness.fillAndMark, Option.bind_eq_bind, Option.bind_eq_some_iff, Option.pure_def,
    Option.some.injEq, Prod.mk.injEq, Prod.exists] at hrun
  obtain ⟨_, _, w₁, hfirst, _, result, _, hsecond, rfl, rfl, rfl⟩ := hrun
  have hquiet : Readiness.pageService.Quiet (Driver.boot emptyWorld) :=
    fun _ _ _ _ h => by cases h
  have hinit : Readiness.pageService.Init (Driver.boot emptyWorld) :=
    ⟨fresh_emptyWorld, fun _ => rfl⟩
  obtain ⟨hrun₁, hquiet₁⟩ := Driver.complete (.nil _) hquiet rfl hfirst
  obtain ⟨hrun₂, -⟩ := Driver.complete hrun₁ hquiet₁ (Config.set_task_of_ne one_ne_zero) hsecond
  have hcourse : JobCourse Readiness.pageSite (.enrich Readiness.one Readiness.page true) _ :=
    jobs_hand_over hinit hrun₂ Config.set_task_self
  exact ⟨_, _, result, _, hinit, hrun₂, Config.set_task_self, hcourse⟩

/-! ## Readiness is earned -/

/-- The page and the format that a job is about. -/
def Job.page : Job → Str × Bool
  | .enrich canonical _ isJson => (canonical, isJson)
  | .extract canonical isJson _ => (canonical, isJson)

/-- A commit marked a page with this digest as ready when its selected files were settled. -/
def Earned (s : Site) (canonical : Str) (isJson : Bool) (digest : Str)
    (evs : List (Event Op Ret (ℕ × ServiceTask))) : Prop :=
  ∃ before expected values after t pid job body w,
    evs = before ++ .call t (.setexManyIfUnchanged expected values) true :: after ∧
    Event.start t (pid, .background job) ∈ before ∧ Job.page job = (canonical, isJson) ∧
    Worked s canonical body isJson (Settled s (picked evidence (history t before))) w ∧
    IsCommit s canonical body isJson (filesChanged w.newFiles w.project.files) true w.completed
      expected values ∧
    bodyDigest w.completed = digest

section Readiness

variable {digest : Str} {log rest pre post : List Evidence} {x : Evidence}
  {expected expected' : List (Str × Option Str)} {values values' : List Write}

/-- The first commit of a log. -/
theorem eq_of_first_commit (hlog : Still log)
    (hrest : ∀ expected values, Evidence.committed expected values ∉ rest)
    (h : log ++ .committed expected' values' :: rest = pre ++ .committed expected values :: post) :
    log = pre ∧ expected' = expected ∧ values' = values := by
  rcases List.append_eq_append_iff.mp h with ⟨between, rfl, hbetween⟩ | ⟨between, rfl, hbetween⟩
  · cases between with
    | nil =>
      obtain ⟨rfl, rfl⟩ := Evidence.committed.inj (List.cons.inj hbetween).1
      exact ⟨(List.append_nil log).symm, rfl, rfl⟩
    | cons y between =>
      obtain ⟨-, hrest'⟩ := List.cons.inj hbetween
      refine absurd ?_ (hrest expected values)
      rw [hrest']
      exact List.mem_append_right _ List.mem_cons_self
  · cases between with
    | nil =>
      obtain ⟨rfl, rfl⟩ := Evidence.committed.inj (List.cons.inj hbetween).1
      exact ⟨List.append_nil pre, rfl, rfl⟩
    | cons y between =>
      obtain ⟨rfl, -⟩ := List.cons.inj hbetween
      have hmem : Evidence.committed expected values ∈
          pre ++ .committed expected values :: between :=
        List.mem_append_right _ List.mem_cons_self
      exact absurd rfl ((hlog _ hmem).1 expected values)

/-- A log without commits. -/
theorem not_first_commit (hlog : ∀ expected values, Evidence.committed expected values ∉ log) :
    log ≠ pre ++ .committed expected values :: post := by
  intro h
  refine hlog expected values ?_
  rw [h]
  exact List.mem_append_right _ List.mem_cons_self

theorem not_committed_of_still (h : Still log) (expected : List (Str × Option Str))
    (values : List Write) : Evidence.committed expected values ∉ log :=
  fun hmem => (h _ hmem).1 expected values rfl

/-- A batch that marks a page as ready is that of a ready commit of the page. -/
theorem ready_of_batch {canonical' completed : Str} {isJson' changed ready : Bool}
    {part : ProjectPart} {boundTtl markerTtl : ℤ} {y : Write}
    (hpart : part = .body isJson' ∨ part = .stale isJson')
    (hy : y ∈ commitBatch s canonical' isJson' changed ready part boundTtl markerTtl completed)
    (hkey : y.key = projectKey canonical (.metadataReady isJson)) :
    ready = true ∧ canonical' = canonical ∧ isJson' = isJson ∧ y.value = bodyDigest completed := by
  rcases mem_commitBatch.mp hy with ⟨-, rfl | ⟨-, rfl⟩⟩ | rfl | ⟨hready, rfl⟩
  · rcases hpart with rfl | rfl
    · cases (projectKey_inj.mp hkey).2
    · cases (projectKey_inj.mp hkey).2
  · cases (projectKey_inj.mp hkey).2
  · cases (projectKey_inj.mp hkey).2
  · obtain ⟨rfl, hsame⟩ := projectKey_inj.mp hkey
    exact ⟨hready, rfl, ProjectPart.metadataReady.inj hsame, rfl⟩

/-- A job that marks a page as ready has settled its selected files. -/
theorem settled_of_course {job : Job} {y : Write}
    (h : JobCourse s job (pre ++ .committed expected values :: post)) (hy : y ∈ values)
    (hkey : y.key = projectKey canonical (.metadataReady isJson)) :
    ∃ body w, Job.page job = (canonical, isJson) ∧
      Worked s canonical body isJson (Settled s pre) w ∧
      IsCommit s canonical body isJson (filesChanged w.newFiles w.project.files) true w.completed
        expected values ∧ y.value = bodyDigest w.completed := by
  have hfinal : ∀ {canonical' body' : Str} {isJson' : Bool} {log : List Evidence} {w : PageWork}
      {expected' : List (Str × Option Str)} {values' : List Write}, Still log →
      Worked s canonical' body' isJson' (Settled s log) w →
      IsCommit s canonical' body' isJson' (filesChanged w.newFiles w.project.files) true w.completed
        expected' values' →
      log ++ [.committed expected' values'] = pre ++ .committed expected values :: post →
      (canonical', isJson') = (canonical, isJson) ∧ ∃ body w,
        Worked s canonical body isJson (Settled s pre) w ∧
        IsCommit s canonical body isJson (filesChanged w.newFiles w.project.files) true w.completed
          expected values ∧ y.value = bodyDigest w.completed := by
    intro canonical' body' isJson' log w expected' values' hstill hworked hcommit heq
    obtain ⟨rfl, rfl, rfl⟩ := eq_of_first_commit hstill (fun _ _ => List.not_mem_nil) heq
    obtain ⟨part, boundTtl, markerTtl, hpart, hbound, hvalues⟩ := id hcommit
    obtain ⟨-, rfl, rfl, hvalue⟩ := ready_of_batch hpart (hvalues ▸ hy) hkey
    exact ⟨rfl, body', w, hworked, hcommit, hvalue⟩
  cases job with
  | enrich canonical' body' isJson' =>
    generalize hall : pre ++ .committed expected values :: post = all at h
    replace h : Discovery s canonical' body' isJson' all := h
    cases h with
    | idle hstill => exact absurd hall.symm (not_first_commit (not_committed_of_still hstill))
    | requeued hstill _ =>
      refine absurd hall.symm (not_first_commit fun _ _ hmem => ?_)
      rcases List.mem_append.mp hmem with hmem | hmem
      · exact not_committed_of_still hstill _ _ hmem
      · cases List.mem_singleton.mp hmem
    | finished hstill hworked hcommit =>
      obtain ⟨hpage, body, w, hrest⟩ := hfinal hstill hworked hcommit hall.symm
      exact ⟨body, w, hpage, hrest⟩
    | handedOver hstill hworked hcommit =>
      -- the commit places the discovered marker only
      obtain ⟨rfl, rfl, rfl⟩ := eq_of_first_commit hstill
        (fun _ _ hmem => by cases List.mem_singleton.mp hmem) hall.symm
      obtain ⟨part, boundTtl, markerTtl, hpart, -, hvalues⟩ := hcommit
      cases (ready_of_batch hpart (hvalues ▸ hy) hkey).1
  | extract canonical' isJson' digest' =>
    generalize hall : pre ++ .committed expected values :: post = all at h
    replace h : Extraction s canonical' isJson' digest' all := h
    cases h with
    | idle hstill => exact absurd hall.symm (not_first_commit (not_committed_of_still hstill))
    | finished hstill _ _ _ hworked hcommit =>
      obtain ⟨hpage, body, w, hrest⟩ := hfinal hstill hworked hcommit hall.symm
      exact ⟨body, w, hpage, hrest⟩

end Readiness

/-! ## Requests do not mark pages -/

/-- The call is no commit: it stores one entry, or no discovered marker. -/
def Markless (o : Op) : Prop :=
  o.writes.length ≤ 1 ∨
    ∀ x ∈ o.writes, ∀ c isJson, x.key ≠ projectKey c (.metadataDiscovered isJson)

theorem markless_of_isRead {o : Op} (ho : o.isRead = true) : Markless o := by
  cases o with
  | setexMany | setexManyIfUnchanged => cases ho
  | _ => exact .inl (Nat.zero_le 1)

theorem markless_lock (lock : ℕ × Str) : Markless (.acquire lock) ∧ Markless (.release lock) :=
  ⟨.inl (Nat.zero_le 1), .inl (Nat.zero_le 1)⟩

theorem markless_of_parts {o : Op} {c : Str} (h : ∀ x ∈ o.writes, ∃ part,
    (∀ isJson, part ≠ .metadataDiscovered isJson) ∧ x.key = projectKey c part) : Markless o := by
  refine .inr fun x hx c' isJson hkey => ?_
  obtain ⟨part, hplain, hpart⟩ := h x hx
  exact hplain isJson (projectKey_inj.mp (hpart.symm.trans hkey)).2

/-- Only a background job can make a commit. -/
theorem markless_of_task {e : ℕ × ServiceTask} (he : ∀ job, e.2 ≠ .background job) :
    (e.2.prog s e.1).Calls Markless := by
  obtain ⟨pid, task⟩ := e
  cases task with
  | background job => exact absurd rfl (he job)
  | index render accept =>
    refine Prog.Calls.bind ?_ fun _ => trivial
    exact simpleIndex_calls_of (fun _ => markless_of_isRead) (fun _ => .inl (Nat.zero_le 1))
      fun _ _ => .inl le_rfl
  | metadata host path query =>
    refine Prog.Calls.bind ?_ fun _ => trivial
    refine wheelMetadata_calls_of (fun _ => markless_of_isRead) markless_lock ?_
    rintro _ ⟨key, value, -, rfl | rfl⟩ <;> exact .inl le_rfl
  | project name accept =>
    refine Prog.Calls.bind (Prog.CallsGiven.calls ?_) fun _ => trivial
    refine serveProject_callsGiven markless_lock ?_ (Prog.callsGiven_of_calls ?_)
    · refine tryServeFromCache_callsGiven (fun _ => markless_of_isRead) (.inl (Nat.zero_le 1)) ?_
      intro other body n staleTtl _ _
      refine markless_of_parts (c := (projectRequest s name accept).canonical) fun x hx => ?_
      rcases mem_conversionValues.mp hx with rfl | ⟨m, -, rfl⟩
      · exact ⟨.body _, nofun, rfl⟩
      · exact ⟨.stale _, nofun, rfl⟩
    · have hvalidator : ∀ {etag lastMod : Option Str} {x : Write} {r : ProjectRequest},
          x ∈ validatorValues s r etag lastMod → ∃ part,
            (∀ isJson, part ≠ .metadataDiscovered isJson) ∧
              x.key = projectKey r.canonical part := by
        intro etag lastMod x r hx
        rcases mem_validatorValues.mp hx with ⟨v, -, rfl⟩ | ⟨v, -, rfl⟩
        · exact ⟨.etag, nofun, rfl⟩
        · exact ⟨.lastmod, nofun, rfl⟩
      refine fetchUpstream_calls (fun _ => markless_of_isRead) (fun _ => .inl (Nat.zero_le 1))
        (.inl le_rfl) ?_ (fun _ => .inl le_rfl) ?_ fun _ _ _ _ => .inl le_rfl
      · intro response values ⟨bodies, hvalues, hbodies⟩
        refine markless_of_parts (c := (projectRequest s name accept).canonical) fun x hx => ?_
        rw [show (Op.setexMany values).writes = values from rfl, hvalues] at hx
        rcases List.mem_append.mp hx with hx | hx
        · exact hvalidator hx
        · obtain ⟨isJson, body, hx⟩ := hbodies x hx
          rcases mem_bodyValues.mp hx with rfl | rfl
          · exact ⟨.body isJson, nofun, rfl⟩
          · exact ⟨.stale isJson, nofun, rfl⟩
      · intro response values ⟨etag, lastMod, responseJson, body, otherStale, hvalues⟩
        refine markless_of_parts (c := (projectRequest s name accept).canonical) fun x hx => ?_
        rw [show (Op.setexMany values).writes = values from rfl, hvalues] at hx
        rcases mem_refreshedValues.mp hx with rfl | hx | ⟨-, other, -, rfl⟩
        · exact ⟨.body responseJson, nofun, rfl⟩
        · exact hvalidator hx
        · exact ⟨.body _, nofun, rfl⟩

theorem marklessness (e : ℕ × ServiceTask) :
    (e.2.prog s e.1).Calls fun o => (∀ job, e.2 ≠ .background job) → Markless o := by
  by_cases he : ∀ job, e.2 ≠ .background job
  · exact (markless_of_task he).mono fun o ho _ => ho
  · exact Prog.calls_of_forall (fun o h => absurd h he) _

/-- A commit that marks a page as ready places both markers. -/
theorem not_markless_of_commit {canonical completed : Str} {isJson changed : Bool}
    {expected : List (Str × Option Str)} {part : ProjectPart} {boundTtl markerTtl : ℤ} :
    ¬ Markless (.setexManyIfUnchanged expected
      (commitBatch s canonical isJson changed true part boundTtl markerTtl completed)) := by
  intro h
  rcases h with hlength | hkeys
  · have htwo : (commitBatch s canonical isJson changed true part boundTtl markerTtl
        completed).length ≤ 1 := hlength
    simp [commitBatch, commitMarkers] at htwo
  · refine hkeys _ (mem_commitBatch.mpr (.inr (.inl rfl))) canonical isJson rfl

/-- **Readiness is earned.** In every run of the service, in any number of processes and over either
backend, a page is only marked as ready after a background job has settled every file that is
selected from it and stored the page that says so. -/
theorem readiness_earned {B : Backend} {upstream : Upstream} {digest : Str}
    {c₀ c : Config Op Ret World (ℕ × ServiceTask) TaskResult}
    {evs : List (Event Op Ret (ℕ × ServiceTask))} (hinit : (deployment s B upstream).Init c₀)
    (hrun : (deployment s B upstream).Run c₀ evs c)
    (hready : c.world.get (projectKey canonical (.metadataReady isJson)) = some digest) :
    Earned s canonical isJson digest evs := by
  obtain ⟨ev, hev, completed, hdigest, hconfirms⟩ := Readiness.ready_of_run hinit hrun hready
  obtain ⟨before, after, rfl⟩ := List.append_of_mem hev
  obtain ⟨d, d', hbefore, hstep⟩ := hrun.split
  cases hstep with
  | start | env => exact hconfirms.elim
  | @call t e o k r w _ htask _ =>
    cases o with
    | setexManyIfUnchanged expected values =>
      obtain ⟨rfl, source, changed, part, boundTtl, markerTtl, hpart, -, -, hvalues⟩ := hconfirms
      obtain ⟨pid, task⟩ := e
      cases task with
      | background job =>
        have hcourse := (hbefore.emits hinit htask (emits_background job)) true
        obtain ⟨post, _, hway⟩ := hcourse.exists_way
        replace hway : JobCourse s job (picked evidence (history t before) ++
          .committed expected values :: post) := hway
        have hmarker : (⟨projectKey canonical (.metadataReady isJson), markerTtl,
            bodyDigest completed⟩ : Write) ∈ values :=
          hvalues ▸ mem_commitBatch.mpr (.inr (.inr ⟨rfl, rfl⟩))
        obtain ⟨body, work, hpage, hworked, hcommit, hvalue⟩ :=
          settled_of_course hway hmarker rfl
        exact ⟨before, expected, values, after, t, pid, job, body, work, rfl,
          hbefore.start_mem hinit htask, hpage, hworked, hcommit, hvalue.symm.trans hdigest⟩
      | project | index | metadata =>
        have hcalls := (System.Reachable.run (.init hinit) hbefore).calls
          (P := fun e o => (∀ job, e.2 ≠ .background job) → Markless o) marklessness htask
        have hmarkless := hcalls.1 nofun
        rw [hvalues] at hmarkless
        exact absurd hmarkless not_markless_of_commit
    | _ => exact hconfirms.elim

theorem readiness_earned_page :
    ∃ (c₀ c : Config Op Ret World (ℕ × ServiceTask) TaskResult)
      (evs : List (Event Op Ret (ℕ × ServiceTask))),
      Readiness.pageService.Init c₀ ∧ Readiness.pageService.Run c₀ evs c ∧
        Earned Readiness.pageSite Readiness.one true (bodyDigest Readiness.page) evs := by
  obtain ⟨c₀, c, evs, hinit, hrun, -, -, -, hmarked⟩ := Readiness.exists_marked
  exact ⟨c₀, c, evs, hinit, hrun, readiness_earned hinit hrun hmarked.marker⟩

end ProxyCache.Theorems.HandOver
