import ProxyCache.App.Models

/-!
# Parsing and rendering (`app/parse.py`)

From a PEP 503 page or a PEP 691 document to a `Project` and back. The page is
seen as its anchors; `modelToHtml` writes the text.
-/

namespace ProxyCache.App

open ProxyCache.Lib ProxyCache.Python

/-- The hash names that `_parse_hashes` keeps. -/
def knownHashes : List Str :=
  ["sha256".toList, "sha384".toList, "sha512".toList, "md5".toList, "sha1".toList,
    "blake2b".toList]

/-- The hash names in the order in which an HTML attribute prefers them. -/
def preferredHashes : List Str :=
  ["sha256".toList, "sha384".toList, "sha512".toList, "blake2b".toList, "sha1".toList,
    "md5".toList]

/-- `metadata_value_to_html`. -/
def metadataValueToHtml (D : Documents) : Json → Option Str
  | .bool true => some ("true" : Str)
  | .bool false => some ("false" : Str)
  | .str s => some s
  | .dict members =>
    preferredHashes.findSome? fun algorithm =>
      match dictGet members algorithm with
      | some digest => if digest.truthy then some (algorithm ++ '=' :: D.text digest) else none
      | none => none
  | _ => none

/-! ## Reading a page -/

/-- One part of a fragment, added to the hashes read so far. -/
def addHash (out : List (Str × Json)) (part : Str) : List (Str × Json) :=
  match cut '=' part with
  | (k, some v) => if k ∈ knownHashes then dictSet out k (.str v) else out
  | (_, none) => out

/-- `_parse_hashes`. -/
def parseHashes (url : Str) : List (Str × Json) :=
  match cut '#' url with
  | (_, none) => []
  | (_, some frag) => (frag.splitOnP fun c => c = '&' || c = ',').foldl addHash []

/-- `_strip_fragment`. -/
def stripFragment (url : Str) : Str := (cut '#' url).1

/-- `_norm_meta`. -/
def normMeta (U : Unicode) (v : Str) : Json :=
  if lower U v = ("true" : Str) then .bool true
  else if lower U v = ("false" : Str) then .bool false
  else
    match cut '=' v with
    | (algorithm, some digest) =>
      if algorithm ≠ [] ∧ digest ≠ [] then .dict [(algorithm, .str digest)] else .str v
    | (_, none) => .str v

/-- An attribute that may be missing, as a field. -/
def optionalStr : Option Str → Json
  | none => .null
  | some s => .str s

/-- What `data-yanked` says. -/
def yankedValue (U : Unicode) : Option Str → Json
  | none => .null
  | some s => if s = [] ∨ lower U s = ("true" : Str) then .bool true else .str s

/-- The file of one anchor, unless it has no link. -/
def parseAnchor (U : Unicode) (a : Anchor) : Option File :=
  match a.get ("href" : Str) with
  | none => none
  | some href =>
    if href = [] then none
    else some {
      filename := .str (strip a.text)
      url := .str (stripFragment href)
      hashes := .dict (parseHashes href)
      requiresPython := optionalStr (a.get ("data-requires-python" : Str))
      yanked := yankedValue U (a.get ("data-yanked" : Str))
      distInfoMetadata := ((a.get ("data-dist-info-metadata" : Str)).map (normMeta U)).getD .null
      coreMetadata := ((a.get ("data-core-metadata" : Str)).map (normMeta U)).getD .null }

/-- `parse_simple_html`. -/
def parseSimpleHtml (U : Unicode) (D : Documents) (projectName html : Str) :
    Except Raised Project := do
  let anchors ← D.anchors html
  return { name := .str projectName, files := anchors.filterMap (parseAnchor U) }

/-! ## Reading a document -/

/-- One entry of `files`. -/
def parseEntry (f : Json) : Except Raised File := do
  let yanked ← f.get ("yanked" : Str) .null
  return {
    filename := ← f.get ("filename" : Str) (.str [])
    url := ← f.get ("url" : Str) (.str [])
    hashes := ← f.get ("hashes" : Str) (.dict [])
    requiresPython := ← f.get ("requires-python" : Str) .null
    yanked := yanked
    distInfoMetadata := ← f.get ("dist-info-metadata" : Str) .null
    coreMetadata := ← f.get ("core-metadata" : Str) .null
    size := ← f.get ("size" : Str) .null
    uploadTime := ← f.get ("upload-time" : Str) .null }

/-- `parse_simple_json`. -/
def parseSimpleJson (data : Json) : Except Raised Project := do
  let name ← data.get ("name" : Str) (.str [])
  let entries ← (← data.get ("files" : Str) (.list [])).elements
  return { name, files := ← entries.mapM parseEntry }

/-! ## Writing a document -/

/-- The member `k`, unless the value is `None`. -/
def member (k : Str) (value : Json) : List (Str × Json) :=
  if value.isNone then [] else [(k, value)]

/-- One entry of `files`. -/
def fileToJson (f : File) : Json :=
  .dict ([(("filename" : Str), f.filename), (("url" : Str), f.url), (("hashes" : Str), f.hashes)]
    ++ member ("requires-python" : Str) f.requiresPython
    ++ member ("yanked" : Str) f.yanked
    ++ member ("core-metadata" : Str) f.coreMetadata
    ++ member ("dist-info-metadata" : Str) f.distInfoMetadata
    ++ (if f.coreMetadata.isNone && f.distInfoMetadata.isNone
        then [(("core-metadata" : Str), .bool false)] else [])
    ++ member ("size" : Str) f.size
    ++ member ("upload-time" : Str) f.uploadTime)

/-- `model_to_json`. -/
def modelToJson (project : Project) : Json :=
  .dict [(("name" : Str), project.name), (("files" : Str), .list (project.files.map fileToJson)),
    (("meta" : Str), .dict [(("api-version" : Str), .str ("1.1" : Str))])]

/-! ## Writing a page -/

/-- `s.replace(c, r)`. -/
def replaceChar (c : Char) (r : Str) (s : Str) : Str := s.flatMap fun d => if d = c then r else [d]

/-- `_esc`. -/
def esc (s : Str) : Str :=
  replaceChar '>' ("&gt;" : Str) (replaceChar '<' ("&lt;" : Str)
    (replaceChar '"' ("&quot;" : Str) (replaceChar '&' ("&amp;" : Str) s)))

/-- A double-quoted attribute with its value escaped. -/
def attr (name value : Str) : Str := name ++ '=' :: '"' :: (esc value ++ ['"'])

/-- The fragment that carries the hashes. -/
def hashFragment (D : Documents) (hashes : Json) : Except Raised Str :=
  if hashes.truthy then
    match hashes with
    | .dict members =>
      .ok ('#' :: List.intercalate ['&'] (members.map fun kv => kv.1 ++ '=' :: D.text kv.2))
    | _ => .error .attributeError
  else .ok []

/-- `f.url + frag`. -/
def addFragment (url : Json) (frag : Str) : Except Raised Str :=
  match url with
  | .str u => .ok (u ++ frag)
  | _ => .error .typeError

def requiresPythonAttribute (f : File) : Except Raised (List Str) := do
  if f.requiresPython.truthy then
    return [attr ("data-requires-python" : Str) (← f.requiresPython.asStr)]
  else return []

def yankedAttribute (f : File) : List Str :=
  match f.yanked with
  | .bool true => [attr ("data-yanked" : Str) []]
  | .str reason => if reason ≠ [] then [attr ("data-yanked" : Str) reason] else []
  | _ => []

/-- The metadata attribute: `core-metadata` takes precedence, and a file that
has neither is marked as having none. -/
def metadataAttribute (D : Documents) (f : File) : List Str :=
  match metadataValueToHtml D f.coreMetadata, metadataValueToHtml D f.distInfoMetadata with
  | some value, _ => [attr ("data-core-metadata" : Str) value]
  | none, some value => [attr ("data-dist-info-metadata" : Str) value]
  | none, none =>
    if f.coreMetadata.isNone && f.distInfoMetadata.isNone then
      [attr ("data-core-metadata" : Str) ("false" : Str)]
    else []

/-- The line of one file. -/
def fileToHtml (D : Documents) (f : File) : Except Raised Str := do
  let frag ← hashFragment D f.hashes
  let url ← addFragment f.url frag
  let attrs := (← requiresPythonAttribute f) ++ yankedAttribute f ++ metadataAttribute D f
  let filename ← f.filename.asStr
  return ("<a " : Str) ++ List.intercalate [' '] (attr ("href" : Str) url :: attrs)
    ++ '>' :: (esc filename ++ ("</a><br/>" : Str))

/-- The lines in front of the files. -/
def htmlHeader (name : Str) : List Str :=
  ["<!DOCTYPE html>".toList,
    "<html><head><meta name=\"pypi:repository-version\" content=\"1.1\">".toList,
    ("<title>Links for " : Str) ++ name ++ ("</title></head><body>" : Str),
    ("<h1>Links for " : Str) ++ name ++ ("</h1>" : Str)]

/-- `model_to_html`. -/
def modelToHtml (D : Documents) (project : Project) : Except Raised Str := do
  let lines ← project.files.mapM (fileToHtml D)
  return List.intercalate ['\n']
    (htmlHeader (D.text project.name) ++ lines ++ ["</body></html>".toList])

end ProxyCache.App
