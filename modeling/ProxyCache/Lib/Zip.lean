import ProxyCache.Lib.LittleEndian
import Mathlib.Algebra.BigOperators.Group.List.Basic

/-!
# A ZIP writer

Members one behind the other, each with a header of its own; then the central
directory with a record for each of them; then the end record and a comment. The
archive is on a single disk and has no ZIP64 records.
-/

namespace ProxyCache.Lib.Zip

/-- A member as it is to be written. The fields from `needed` on are in one of the two headers
only, or say nothing about the data; the three `local` sums may be zero where a descriptor
follows the data. -/
structure Entry where
  rawName : List UInt8
  flags : ℕ
  method : ℕ
  crc32 : ℕ
  compressed : List UInt8
  uncompressedSize : ℕ
  localExtra : List UInt8
  centralExtra : List UInt8
  comment : List UInt8
  needed : ℕ
  time : ℕ
  date : ℕ
  localCrc32 : ℕ
  localCompressed : ℕ
  localUncompressed : ℕ
  descriptor : List UInt8
  made : ℕ
  internal : ℕ
  external : ℕ

/-- The widths of the numbers in a local header, in a record of the central directory, and in
the end record. -/
def localWidths : List ℕ := [4, 2, 2, 2, 2, 2, 4, 4, 4, 2, 2]

def centralWidths : List ℕ := [4, 2, 2, 2, 2, 2, 2, 4, 4, 4, 2, 2, 2, 2, 2, 4, 4]

def endWidths : List ℕ := [4, 2, 2, 2, 2, 4, 4, 2]

namespace Entry

variable (e : Entry)

/-- The numbers of the local header. -/
def localFields : List (ℕ × ℕ) :=
  [(4, 0x04034b50), (2, e.needed), (2, e.flags), (2, e.method), (2, e.time), (2, e.date),
    (4, e.localCrc32), (4, e.localCompressed), (4, e.localUncompressed), (2, e.rawName.length),
    (2, e.localExtra.length)]

/-- The local header, the data, and a descriptor. -/
def localBytes : List UInt8 :=
  encodeFields e.localFields ++ (e.rawName ++ (e.localExtra ++ (e.compressed ++ e.descriptor)))

/-- The numbers of the record in the central directory. -/
def centralFields (offset : ℕ) : List (ℕ × ℕ) :=
  [(4, 0x02014b50), (2, e.made), (2, e.needed), (2, e.flags), (2, e.method), (2, e.time),
    (2, e.date), (4, e.crc32), (4, e.compressed.length), (4, e.uncompressedSize),
    (2, e.rawName.length), (2, e.centralExtra.length), (2, e.comment.length), (2, 0),
    (2, e.internal), (4, e.external), (4, offset)]

end Entry

/-- Members one behind the other. -/
def locals (entries : List Entry) : List UInt8 := entries.flatMap Entry.localBytes

/-- The members with the offsets of their local headers, from `start` on. -/
def located : ℕ → List Entry → List (Entry × ℕ)
  | _, [] => []
  | start, e :: entries => (e, start) :: located (start + e.localBytes.length) entries

def centralBytes (x : Entry × ℕ) : List UInt8 :=
  encodeFields (x.1.centralFields x.2) ++ x.1.rawName ++ x.1.centralExtra ++ x.1.comment

def central (entries : List Entry) : List UInt8 := (located 0 entries).flatMap centralBytes

/-- The numbers of the end record. -/
def endFields (entries : List Entry) (comment : List UInt8) : List (ℕ × ℕ) :=
  [(4, 0x06054b50), (2, 0), (2, 0), (2, entries.length), (2, entries.length),
    (4, (central entries).length), (4, (locals entries).length), (2, comment.length)]

/-- Where the end record stands. -/
def endOffset (entries : List Entry) : ℕ := (locals entries).length + (central entries).length

def archive (entries : List Entry) (comment : List UInt8) : List UInt8 :=
  locals entries ++ (central entries ++ (encodeFields (endFields entries comment) ++ comment))

section Located

variable {entries before after : List Entry} {e : Entry} {start : ℕ}

theorem locals_cons (e : Entry) (entries : List Entry) :
    locals (e :: entries) = e.localBytes ++ locals entries := rfl

theorem locals_append (before after : List Entry) :
    locals (before ++ after) = locals before ++ locals after :=
  List.flatMap_append

theorem length_located (start : ℕ) (entries : List Entry) :
    (located start entries).length = entries.length := by
  induction entries generalizing start with
  | nil => rfl
  | cons e entries ih => rw [located, List.length_cons, ih, List.length_cons]

/-- The members behind the first ones are located behind them. -/
theorem located_append (start : ℕ) (before after : List Entry) :
    located start (before ++ after) =
      located start before ++ located (start + (locals before).length) after := by
  induction before generalizing start with
  | nil => rfl
  | cons e before ih =>
    rw [List.cons_append, located, located, ih, locals_cons, List.length_append, ← Nat.add_assoc]
    rfl

/-- A located member is one of the members, and ends before the last one does. -/
theorem mem_located {x : Entry × ℕ} (h : x ∈ located start entries) :
    x.1 ∈ entries ∧ x.2 + x.1.localBytes.length ≤ start + (locals entries).length := by
  induction entries generalizing start with
  | nil => cases h
  | cons e entries ih =>
    rw [locals_cons, List.length_append]
    rcases List.mem_cons.mp h with rfl | h
    · refine ⟨List.mem_cons_self, ?_⟩
      dsimp only
      omega
    · obtain ⟨hmem, hle⟩ := ih h
      exact ⟨List.mem_cons_of_mem _ hmem, by omega⟩

end Located

/-! ## Widths -/

theorem widths_localFields (e : Entry) : e.localFields.map Prod.fst = localWidths := rfl

theorem widths_centralFields (e : Entry) (offset : ℕ) :
    (e.centralFields offset).map Prod.fst = centralWidths := rfl

theorem widths_endFields (entries : List Entry) (comment : List UInt8) :
    (endFields entries comment).map Prod.fst = endWidths := rfl

/-! ## Where the parts of an archive stand -/

section Archive

variable {before after entries : List Entry} {e : Entry} {comment : List UInt8}

theorem length_archive : (archive entries comment).length =
    endOffset entries + 22 + comment.length := by
  have hend : (encodeFields (endFields entries comment)).length = 22 :=
    length_encodeFields (widths_endFields entries comment)
  rw [archive, List.length_append, List.length_append, List.length_append, hend, endOffset]
  omega

/-- The member behind the first ones. -/
theorem drop_locals : (archive (before ++ e :: after) comment).drop (locals before).length =
    e.localBytes ++ (locals after ++ (central (before ++ e :: after) ++
      (encodeFields (endFields (before ++ e :: after) comment) ++ comment))) := by
  rw [archive, locals_append, locals_cons, List.append_assoc, List.drop_left, List.append_assoc]

theorem drop_central : (archive entries comment).drop (locals entries).length =
    central entries ++ (encodeFields (endFields entries comment) ++ comment) := by
  rw [archive, List.drop_left]

theorem drop_end : (archive entries comment).drop (endOffset entries) =
    encodeFields (endFields entries comment) ++ comment := by
  rw [endOffset, ← List.drop_drop, drop_central, List.drop_left]

end Archive

end ProxyCache.Lib.Zip
