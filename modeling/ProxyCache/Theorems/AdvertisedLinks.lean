import ProxyCache.App.Metadata
import ProxyCache.Theorems.MalformedLinks

/-!
# The links beside the advertised files

`_advertise_metadata` rewrites the link of each entry or anchor whose file advertises metadata,
also of those that did so before. One such link that cannot be rewritten stops all of it, and for
a body that was parsed there is nothing else that stops it.
-/

namespace ProxyCache.Theorems.AdvertisedLinks

open ProxyCache.Lib ProxyCache.Python ProxyCache.App
open ProxyCache.Theorems.MalformedLinks (Readable exists_rewritten_iff)

variable (s : Site)

/-! ## The links -/

/-- The link of an entry, if it is rewritten. -/
def entryLink (entry : Json) (f : File) : Option Str :=
  match entry with
  | .dict members =>
    if needsProbe f then none
    else
      match dictGet members ("url" : Str) with
      | some (.str url) => some url
      | _ => none
  | _ => none

def linkOf (a : Anchor) : Str := (a.get ("href" : Str)).getD []

/-- The link of an anchor, if it is rewritten. -/
def anchorLink (a : Anchor) (f : File) : Option Str :=
  if needsProbe f then none else (metadataValueToHtml s.D f.coreMetadata).map fun _ => linkOf a

/-- The links of a body that are rewritten when these files are advertised in it. -/
def advertisedLinks (body : Str) (isJson : Bool) (files : List File) : List Str :=
  if isJson then
    match s.D.loads body with
    | .ok (.dict members) =>
      match dictGet members ("files" : Str) with
      | some (.list entries) => (entries.zip files).filterMap fun p => entryLink p.1 p.2
      | _ => []
    | _ => []
  else
    match s.D.anchors body with
    | .ok anchors =>
      ((anchors.filter (linkOf · != [])).zip files).filterMap fun p => anchorLink s p.1 p.2
    | .error _ => []

/-! ## When they are rewritten -/

variable {s} {members : List (Str × Json)} {entry : Json} {f : File} {a : Anchor}
  {files : List File} {body canonical : Str} {isJson : Bool} {project : Project}

/-- Nothing is rewritten. -/
theorem ok_iff_of_no_link {α : Type} {a : α} : (∃ b, (.ok a : Except Raised α) = .ok b) ↔
    ∀ link, (none : Option Str) = some link → Readable s.U s.settings link :=
  ⟨fun _ _ hlink => absurd hlink (Option.some_ne_none _).symm, fun _ => ⟨a, rfl⟩⟩

theorem advertiseEntry_ok_iff : (∃ entry', advertiseEntry s entry f = .ok entry') ↔
    ∀ link, entryLink entry f = some link → Readable s.U s.settings link := by
  cases entry with
  | dict members =>
    unfold advertiseEntry entryLink
    by_cases hneeds : needsProbe f = true
    · simp only [hneeds, if_true]
      exact ok_iff_of_no_link
    have hurl : dictGet (dictSet members ("core-metadata" : Str) f.coreMetadata) ("url" : Str) =
        dictGet members ("url" : Str) := dictGet_dictSet_of_ne (by decide) ..
    simp only [if_neg hneeds, hurl]
    cases dictGet members ("url" : Str) with
    | none => exact ok_iff_of_no_link
    | some value =>
      cases value with
      | str url =>
        simp only [Option.some.injEq, forall_eq', ← exists_rewritten_iff]
        exact exists_ok_return
      | _ => exact ok_iff_of_no_link
  | _ => exact ok_iff_of_no_link

theorem advertiseEntries_ok_iff {entries : List Json} :
    (∃ entries', advertiseEntries s entries files = .ok entries') ↔
      ∀ link ∈ (entries.zip files).filterMap fun p => entryLink p.1 p.2,
        Readable s.U s.settings link := by
  induction entries generalizing files with
  | nil => exact ⟨nofun, fun _ => ⟨[], rfl⟩⟩
  | cons entry entries ih =>
    cases files with
    | nil => exact ⟨nofun, fun _ => ⟨_, rfl⟩⟩
    | cons f files =>
      rw [advertiseEntries, exists_ok_cons, advertiseEntry_ok_iff, ih, List.zip_cons_cons,
        List.filterMap_cons]
      cases entryLink entry f with
      | none => exact and_iff_right nofun
      | some link => simp only [Option.some.injEq, forall_eq', List.forall_mem_cons]

theorem advertiseAnchor_ok_iff : (∃ a', advertiseAnchor s a f = .ok a') ↔
    ∀ link, anchorLink s a f = some link → Readable s.U s.settings link := by
  unfold advertiseAnchor anchorLink
  by_cases hneeds : needsProbe f = true
  · simp only [hneeds, if_true]
    exact ok_iff_of_no_link
  rw [if_neg hneeds, if_neg hneeds]
  cases metadataValueToHtml s.D f.coreMetadata with
  | none => exact ok_iff_of_no_link
  | some value =>
    have hhref : (dictGet (dictSet a.attrs ("data-core-metadata" : Str) value)
        ("href" : Str)).getD [] = linkOf a :=
      congrArg (Option.getD · []) (dictGet_dictSet_of_ne (by decide) ..)
    simp only [hhref, Option.map, Option.some.injEq, forall_eq', ← exists_rewritten_iff]
    exact exists_ok_return

theorem advertiseAnchors_ok_iff {anchors : List Anchor} :
    (∃ anchors', advertiseAnchors s anchors files = .ok anchors') ↔
      ∀ link ∈ ((anchors.filter (linkOf · != [])).zip files).filterMap fun p =>
          anchorLink s p.1 p.2,
        Readable s.U s.settings link := by
  induction anchors generalizing files with
  | nil => exact ⟨nofun, fun _ => ⟨[], rfl⟩⟩
  | cons a anchors ih =>
    cases files with
    | nil =>
      rw [List.zip_nil_right]
      exact ⟨nofun, fun _ => ⟨_, rfl⟩⟩
    | cons f files =>
      rw [advertiseAnchors]
      by_cases hlink : (a.get ("href" : Str)).getD [] = []
      · -- an anchor without a link has no file
        rw [if_pos hlink, List.filter_cons_of_neg (by simpa [linkOf] using hlink), ← ih]
        exact exists_ok_return
      · rw [if_neg hlink, List.filter_cons_of_pos (by simpa [linkOf] using hlink), exists_ok_cons,
          advertiseAnchor_ok_iff, ih, List.zip_cons_cons, List.filterMap_cons]
        cases anchorLink s a f with
        | none => exact and_iff_right nofun
        | some link => simp only [Option.some.injEq, forall_eq', List.forall_mem_cons]

/-- **The advertisement of files** in a body that was parsed is rendered exactly when each link
beside one of them can be rewritten. -/
theorem advertiseMetadata_ok_iff (hparse : parseProjectBody s canonical body isJson = .ok project) :
    (∃ completedBody, advertiseMetadata s body isJson files = .ok completedBody) ↔
      ∀ link ∈ advertisedLinks s body isJson files, Readable s.U s.settings link := by
  unfold parseProjectBody at hparse
  unfold advertiseMetadata advertisedLinks
  cases isJson with
  | true =>
    simp only [if_true] at hparse ⊢
    obtain ⟨document, hloads, hparse⟩ := ok_of_bind hparse
    obtain ⟨parsed, hparse, -⟩ := ok_of_bind hparse
    obtain ⟨name, hname, hparse⟩ := ok_of_bind hparse
    obtain ⟨value, hvalue, hparse⟩ := ok_of_bind hparse
    obtain ⟨elements, helements, -⟩ := ok_of_bind hparse
    cases document with
    | dict members =>
      obtain rfl := Except.ok.inj hvalue
      simp only [hloads, Json.get, bind, Except.bind]
      have hnone : ∀ link ∈ ([] : List Str), Readable s.U s.settings link := List.forall_mem_nil _
      cases hfiles : dictGet members ("files" : Str) with
      | none => exact ⟨fun _ => hnone, fun _ => ⟨_, rfl⟩⟩
      | some value =>
        cases value with
        | list entries =>
          rw [← advertiseEntries_ok_iff]
          exact exists_ok_return
        | _ =>
          rw [hfiles] at helements
          simp only [Option.getD_some] at helements
          exact ⟨fun _ => hnone, fun _ => ⟨_, by simp only [Option.getD_some, helements]; rfl⟩⟩
    | _ => cases hname
  | false =>
    simp only [Bool.false_eq_true, if_false] at hparse ⊢
    obtain ⟨parsed, hparse, -⟩ := ok_of_bind hparse
    obtain ⟨anchors, hanchors, -⟩ := ok_of_bind hparse
    rw [hanchors, ← advertiseAnchors_ok_iff]
    exact exists_ok_return

end ProxyCache.Theorems.AdvertisedLinks
