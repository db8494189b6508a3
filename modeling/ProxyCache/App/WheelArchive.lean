import ProxyCache.App.Packaging
import ProxyCache.App.WheelMetadata
import ProxyCache.Lib.LittleEndian
import ProxyCache.Python.Percent
import ProxyCache.Python.Sha256
import ProxyCache.Python.UrlSplit

/-!
# Extraction from a wheel (`app/wheel_metadata.py`)

`extract_wheel_metadata` and what it reads of the ZIP format: the end record, the
central directory, one local header, and the data of one member. `struct` reads
that do not fit raise. `zlib`, the CRC and `packaging` are parameters.
-/

namespace ProxyCache.App.WheelMetadata

open ProxyCache.Lib ProxyCache.Python

def maxCentralDirectorySize : ℕ := 32 * 1024 * 1024

def maxEntries : ℕ := 100000

def maxCompressedMetadataSize : ℕ := 8 * 1024 * 1024

def maxMetadataSize : ℕ := 8 * 1024 * 1024

/-- `PK` and two more bytes. -/
def eocdSignature : Bytes := [0x50, 0x4b, 5, 6]

def zip64LocatorSignature : Bytes := [0x50, 0x4b, 6, 7]

def centralSignature : Bytes := [0x50, 0x4b, 1, 2]

def localSignature : Bytes := [0x50, 0x4b, 3, 4]

/-- What extraction can raise; the first two are `WheelMetadataError`s. -/
inductive Raise where
  | wheelMetadata (message : Str)
  | rangeNotSupported (message : Str)
  | valueError
  | structError
  deriving DecidableEq

def Raise.ofFetch : FetchError → Raise
  | .wheelMetadata message => .wheelMetadata message
  | .rangeNotSupported message => .rangeNotSupported message
  | .valueError => .valueError

/-- `raise WheelMetadataError(message)` under a condition. -/
def refuseIf (condition : Prop) [Decidable condition] (message : Str) : Except Raise Unit :=
  if condition then .error (.wheelMetadata message) else .ok ()

/-! ## Libraries -/

/-- Decompression objects of `zlib` for raw streams; `none` is a `zlib.error`. -/
structure Zlib where
  Object : Type
  decompressobj : Object
  decompress : Object → Bytes → ℕ → Option (Bytes × Object)
  flush : Object → ℕ → Option (Bytes × Object)
  eof : Object → Bool
  unusedData : Object → Bytes
  unconsumedTail : Object → Bytes
  /-- What a complete stream at the start of the data inflates to, and the data
  behind it. -/
  inflate : Bytes → Option (Bytes × Bytes)
  /-- An object that has consumed everything and is at the end of its stream has
  inflated it, and holds what lies behind. -/
  inflate_eq : ∀ {data n result object m rest object'},
    decompress decompressobj data n = some (result, object) → unconsumedTail object = [] →
    flush object m = some (rest, object') → eof object' = true → unconsumedTail object' = [] →
    inflate data = some (result ++ rest, unusedData object')

/-! ## `struct` -/

def unpackH (data : Bytes) (offset : ℕ) : Except Raise ℕ :=
  match readNumber 2 data offset with
  | some n => .ok n
  | none => .error .structError

def unpackI (data : Bytes) (offset : ℕ) : Except Raise ℕ :=
  match readNumber 4 data offset with
  | some n => .ok n
  | none => .error .structError

/-! ## The end record -/

/-- The search for the end record: the candidates below the given one, from the
last to the first. -/
def findEocd (tail : Bytes) : ℕ → Except Raise (Option ℕ)
  | 0 => .ok none
  | candidate + 1 =>
    if part tail candidate 4 ≠ eocdSignature then findEocd tail candidate
    else do
      let commentLength ← unpackH tail (candidate + 20)
      if candidate + eocdSize + commentLength = tail.length then return some candidate
      else findEocd tail candidate

/-- `_parse_eocd`: the offset and the size of the central directory, and the
number of its entries. -/
def parseEocd (tail : Bytes) (tailStart archiveSize : ℕ) : Except Raise (ℕ × ℕ × ℕ) := do
  match ← findEocd tail (tail.length + 1 - eocdSize) with
  | none => .error (.wheelMetadata ("ZIP end record not found" : Str))
  | some offset =>
    let disk ← unpackH tail (offset + 4)
    let centralDisk ← unpackH tail (offset + 6)
    let diskEntries ← unpackH tail (offset + 8)
    let totalEntries ← unpackH tail (offset + 10)
    let centralSize ← unpackI tail (offset + 12)
    let centralOffset ← unpackI tail (offset + 16)
    let commentLength ← unpackH tail (offset + 20)
    let eocdAbsolute := tailStart + offset
    refuseIf (eocdAbsolute + eocdSize + commentLength ≠ archiveSize)
      ("invalid ZIP end record or trailing data" : Str)
    refuseIf (disk ≠ 0 ∨ centralDisk ≠ 0 ∨ diskEntries ≠ totalEntries)
      ("multi-disk ZIP archives are unsupported" : Str)
    refuseIf (totalEntries = 0xFFFF ∨ centralSize = 0xFFFFFFFF ∨ centralOffset = 0xFFFFFFFF ∨
        (offset ≥ 20 ∧ part tail (offset - 20) 4 = zip64LocatorSignature))
      ("ZIP64 archives are unsupported" : Str)
    refuseIf (totalEntries = 0 ∨ totalEntries > maxEntries) ("invalid ZIP entry count" : Str)
    refuseIf (centralSize = 0 ∨ centralSize > maxCentralDirectorySize)
      ("central directory exceeds size limit" : Str)
    refuseIf (centralOffset + centralSize ≠ eocdAbsolute) ("invalid central directory bounds" : Str)
    return (centralOffset, centralSize, totalEntries)

/-! ## The central directory -/

/-- `_has_zip64_extra` from `offset` on; each round takes four bytes or more. -/
def hasZip64ExtraFrom (extra : Bytes) : ℕ → ℕ → Except Raise Bool
  | 0, _ => .ok false
  | rounds + 1, offset =>
    if offset < extra.length then do
      refuseIf (extra.length - offset < 4) ("malformed ZIP extra field" : Str)
      let fieldId ← unpackH extra offset
      let size ← unpackH extra (offset + 2)
      refuseIf (offset + 4 + size > extra.length) ("malformed ZIP extra field" : Str)
      if fieldId = 0x0001 then return true
      else hasZip64ExtraFrom extra rounds (offset + 4 + size)
    else .ok false

/-- `_has_zip64_extra`. -/
def hasZip64Extra (extra : Bytes) : Except Raise Bool := hasZip64ExtraFrom extra extra.length 0

/-- The upper half of code page 437. -/
def cp437High : Str :=
  "ÇüéâäàåçêëèïîìÄÅÉæÆôöòûùÿÖÜ¢£¥₧ƒáíóúñÑªº¿⌐¬½¼¡«»░▒▓│┤╡╢╖╕╣║╗╝╜╛┐".toList ++
    "└┴┬├─┼╞╟╚╔╩╦╠═╬╧╨╤╥╙╘╒╓╫╪┘┌█▄▌▐▀αßΓπΣσµτΦΘΩδ∞φε∩≡±≥≤⌠⌡÷≈°∙·√ⁿ²■\u00a0".toList

/-- `bytes.decode("cp437")`. -/
def decodeCp437 (bytes : Bytes) : Str :=
  bytes.map fun b => if b < 0x80 then Char.ofNat b.toNat else cp437High.getD (b.toNat - 0x80) ' '

/-- `_decode_name`. -/
def decodeName (rawName : Bytes) (flags : ℕ) : Except Raise Str :=
  if flags &&& 0x800 ≠ 0 then
    match decodeUtf8Strict rawName with
    | some name => .ok name
    | none => .error (.wheelMetadata ("invalid ZIP member name" : Str))
  else .ok (decodeCp437 rawName)

def distInfoSuffix : Str := (".dist-info" : Str)

/-- `_is_metadata_name`. -/
def isMetadataName (name : Str) : Bool :=
  match name.splitOn '/' with
  | [directory, file] =>
    distInfoSuffix.isSuffixOf directory && directory != distInfoSuffix && file == ("METADATA" : Str)
  | _ => false

/-- The member that carries the metadata, as the central directory describes it. -/
structure Member where
  name : Str
  flags : ℕ
  method : ℕ
  crc32 : ℕ
  compressedSize : ℕ
  uncompressedSize : ℕ
  localOffset : ℕ
  deriving DecidableEq

/-- One record of the central directory: the member when it carries the metadata,
and the end of the record. -/
def parseRecord (data : Bytes) (offset : ℕ) : Except Raise (Option Member × ℕ) := do
  refuseIf (offset + 46 > data.length ∨ part data offset 4 ≠ centralSignature)
    ("malformed central directory" : Str)
  let flags ← unpackH data (offset + 8)
  let method ← unpackH data (offset + 10)
  let crc32 ← unpackI data (offset + 16)
  let compressedSize ← unpackI data (offset + 20)
  let uncompressedSize ← unpackI data (offset + 24)
  let nameLength ← unpackH data (offset + 28)
  let extraLength ← unpackH data (offset + 30)
  let commentLength ← unpackH data (offset + 32)
  let diskStart ← unpackH data (offset + 34)
  let localOffset ← unpackI data (offset + 42)
  let recordEnd := offset + 46 + nameLength + extraLength + commentLength
  refuseIf (recordEnd > data.length) ("truncated central directory" : Str)
  let rawName := part data (offset + 46) nameLength
  let extra := part data (offset + 46 + nameLength) extraLength
  let zip64 ← (if compressedSize = 0xFFFFFFFF ∨ uncompressedSize = 0xFFFFFFFF ∨
      localOffset = 0xFFFFFFFF ∨ diskStart = 0xFFFF then .ok true else hasZip64Extra extra)
  refuseIf (zip64 = true) ("ZIP64 archives are unsupported" : Str)
  refuseIf (diskStart ≠ 0) ("multi-disk ZIP archives are unsupported" : Str)
  let name ← decodeName rawName flags
  let member : Member :=
    { name, flags, method, crc32, compressedSize, uncompressedSize, localOffset }
  return (if isMetadataName name then some member else none, recordEnd)

/-- The loop over the records: the members found, and the end of the last record. -/
def parseRecords (data : Bytes) : ℕ → ℕ → Except Raise (List Member × ℕ)
  | 0, offset => .ok ([], offset)
  | count + 1, offset => do
    let (member, recordEnd) ← parseRecord data offset
    let (members, stop) ← parseRecords data count recordEnd
    return (member.toList ++ members, stop)

/-- `_parse_central_directory`. -/
def parseCentralDirectory (data : Bytes) (entryCount : ℕ) : Except Raise Member := do
  let (metadata, offset) ← parseRecords data entryCount 0
  refuseIf (offset ≠ data.length) ("central directory entry count mismatch" : Str)
  match metadata with
  | [member] => return member
  | _ => .error (.wheelMetadata ("wheel must contain exactly one dist-info/METADATA member" : Str))

/-! ## The name of the wheel -/

/-- `unquote(urlparse(url).path).rsplit("/", 1)[-1]`. -/
def wheelFilename (U : Unicode) (url : Str) : Except Raise Str :=
  match urlparse U url [] with
  | .ok parsed => .ok (rcut '/' (unquote parsed.path)).2
  | .error _ => .error .valueError

/-- The first directory of a member name, without `.dist-info`. -/
def distInfoOf (memberName : Str) : Str :=
  let directory := (cut '/' memberName).1
  if distInfoSuffix.isSuffixOf directory then
    directory.take (directory.length - distInfoSuffix.length)
  else directory

def ofPackaging {α : Type} (message : Str) : Except PackagingError α → Except Raise α
  | .ok a => .ok a
  | .error .invalid => .error (.wheelMetadata message)
  | .error .valueError => .error .valueError

/-- `_validate_metadata_member`. -/
def validateMetadataMember (U : Unicode) (P : Packaging) (memberName url : Str) :
    Except Raise Unit := do
  let wheelFilename ← wheelFilename U url
  let (wheelDistribution, wheelVersion) ←
    ofPackaging ("artifact URL does not contain a valid wheel filename" : Str)
      (P.parseWheelFilename wheelFilename)
  match rcut '-' (distInfoOf memberName) with
  | (some metadataDistribution, metadataVersion) =>
    refuseIf (metadataDistribution = [] ∨
      metadataVersion = []) ("invalid dist-info directory name" : Str)
    let parsedMetadataVersion ← ofPackaging ("invalid dist-info version" : Str)
      (P.version metadataVersion)
    refuseIf (P.canonicalizeName metadataDistribution ≠ wheelDistribution ∨
        parsedMetadataVersion ≠ wheelVersion)
      ("dist-info directory does not match wheel filename" : Str)
  | (none, _) => .error (.wheelMetadata ("invalid dist-info directory name" : Str))

/-! ## The data -/

/-- `_decompress_metadata`. The length that `flush` is given is only the size of its first buffer:
it returns all the rest. -/
def decompressMetadata (Z : Zlib) (data : Bytes) (method expectedSize : ℕ) : Except Raise Bytes :=
  if method = 0 then do
    refuseIf (data.length ≠ expectedSize) ("stored metadata size mismatch" : Str)
    return data
  else if method ≠ 8 then
    .error (.wheelMetadata (("unsupported metadata compression method " : Str) ++ str method))
  else
    match Z.decompress Z.decompressobj data (maxMetadataSize + 1) with
    | none => .error (.wheelMetadata ("invalid deflate stream" : Str))
    | some (result, decompressor) => do
      refuseIf (result.length > maxMetadataSize ∨ Z.unconsumedTail decompressor ≠ [])
        ("deflated metadata exceeds size limit" : Str)
      match Z.flush decompressor (maxMetadataSize + 1 - result.length) with
      | none => .error (.wheelMetadata ("invalid deflate stream" : Str))
      | some (rest, decompressor) =>
        let result := result ++ rest
        refuseIf (result.length > maxMetadataSize ∨ result.length ≠ expectedSize ∨
            Z.eof decompressor = false ∨ Z.unusedData decompressor ≠ [] ∨
            Z.unconsumedTail decompressor ≠ [])
          ("deflated metadata size mismatch" : Str)
        return result

/-! ## Extraction -/

/-- What extraction has requested, by the `Range` headers, and what it returns or
raises. -/
structure Extraction (α : Type) where
  requested : List Str
  result : Except Raise α

namespace Extraction

variable {α β : Type}

instance : Monad Extraction where
  pure a := ⟨[], .ok a⟩
  bind x f :=
    match x.result with
    | .ok a => ⟨x.requested ++ (f a).requested, (f a).result⟩
    | .error e => ⟨x.requested, .error e⟩

/-- A step that requests nothing. -/
def lift (r : Except Raise α) : Extraction α := ⟨[], r⟩

/-- A step that sends one request. -/
def request (rangeValue : Str) (read : Read α) : Extraction α :=
  ⟨[rangeValue], read.result.mapError Raise.ofFetch⟩

end Extraction

/-- The nested `fetch_exact`: a request, or a part of the archive when the first
answer was all of it. -/
def fetchPart (U : Unicode) (origin : Origin) (url : Str) (fullArchive : Option Bytes)
    (archiveSize start length : ℕ) : Extraction Bytes :=
  if length = 0 ∨ start + length > archiveSize then
    .lift (.error (.wheelMetadata ("invalid ZIP byte range" : Str)))
  else
    match fullArchive with
    | none => .request (exactRange start length) (fetchExact U origin url start length archiveSize)
    | some archive => .lift (.ok (part archive start length))

section Extract

variable (U : Unicode) (P : Packaging) (Z : Zlib) (crc32 : Bytes → ℕ)

/-- The first part of `extract_wheel_metadata`, once the tail is there: the member
that the central directory names. -/
def locateMember (fetch : ℕ → ℕ → Extraction Bytes) (tail : Bytes) (archiveSize : ℕ) :
    Extraction Member := do
  let (centralOffset, centralSize, entryCount) ←
    .lift (parseEocd tail (archiveSize - tail.length) archiveSize)
  let central ← fetch centralOffset centralSize
  .lift (parseCentralDirectory central entryCount)

/-- The lengths of the name and of the extra field in a local header that agrees
with the central directory. -/
def parseLocalHeader (localHeader : Bytes) (member : Member) : Except Raise (ℕ × ℕ) := do
  refuseIf (part localHeader 0 4 ≠ localSignature) ("invalid local file header" : Str)
  let localFlags ← unpackH localHeader 6
  let localMethod ← unpackH localHeader 8
  let nameLength ← unpackH localHeader 26
  let extraLength ← unpackH localHeader 28
  refuseIf (localFlags ≠ member.flags ∨ localMethod ≠ member.method)
    ("local and central ZIP headers disagree" : Str)
  refuseIf (localFlags &&& 0x41 ≠ 0) ("encrypted ZIP members are unsupported" : Str)
  return (nameLength, extraLength)

/-- The name and the extra field behind a local header agree with the central
directory. -/
def checkLocalName (variablePart : Bytes) (nameLength : ℕ) (member : Member) :
    Except Raise Unit := do
  let localName ← decodeName (part variablePart 0 nameLength) member.flags
  refuseIf (localName ≠ member.name) ("local and central member names disagree" : Str)
  let zip64 ← hasZip64Extra (variablePart.drop nameLength)
  refuseIf (zip64 = true) ("ZIP64 archives are unsupported" : Str)

/-- The checks on what the central directory says about the member. -/
def checkMember (member : Member) : Except Raise Unit := do
  refuseIf (member.flags &&& 0x41 ≠ 0) ("encrypted ZIP members are unsupported" : Str)
  refuseIf (member.compressedSize > maxCompressedMetadataSize ∨
    member.uncompressedSize > maxMetadataSize) ("metadata exceeds size limit" : Str)
  refuseIf (member.compressedSize = 0) ("empty wheel metadata" : Str)

/-- The last part: the data, inflated, with the recorded CRC. -/
def decodeMember (compressed : Bytes) (member : Member) : Except Raise Bytes := do
  let result ← decompressMetadata Z compressed member.method member.uncompressedSize
  refuseIf (crc32 result &&& 0xFFFFFFFF ≠ member.crc32) ("metadata CRC mismatch" : Str)
  return result

/-- The part of `extract_wheel_metadata` behind the check of the name. -/
def readMember (fetch : ℕ → ℕ → Extraction Bytes) (member : Member) : Extraction Bytes := do
  .lift (checkMember member)
  let localHeader ← fetch member.localOffset 30
  let (nameLength, extraLength) ← .lift (parseLocalHeader localHeader member)
  let variablePart ← fetch (member.localOffset + 30) (nameLength + extraLength)
  .lift (checkLocalName variablePart nameLength member)
  let compressed ← fetch (member.localOffset + 30 + nameLength + extraLength) member.compressedSize
  .lift (decodeMember Z crc32 compressed member)

/-- `extract_wheel_metadata`. -/
def extractWheelMetadata (origin : Origin) (url : Str) : Extraction Bytes := do
  let (tail, archiveSize, isFullResponse) ←
    Extraction.request (suffixRange maxEocdSearch) (fetchSuffix U origin url maxEocdSearch)
  let fetch := fetchPart U origin url (if isFullResponse then some tail else none) archiveSize
  let member ← locateMember fetch tail archiveSize
  .lift (validateMetadataMember U P member.name url)
  readMember Z crc32 fetch member

end Extract

end ProxyCache.App.WheelMetadata
