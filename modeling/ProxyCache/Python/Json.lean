import ProxyCache.Python.Text

/-!
# Python values and documents

The values that `json.loads` builds, with the operations of the language that
the code applies to them whatever their type: truth, attribute `get`, iteration.
What `json` and `BeautifulSoup` do to texts is a parameter (`Documents`).
-/

namespace ProxyCache.Python

/-- A value as `json.loads` builds it, or `None`. A dict is in insertion order;
a float is kept as its `repr`. -/
inductive Json where
  | null
  | bool (b : Bool)
  | int (n : ℤ)
  | float (repr : Str)
  | str (s : Str)
  | list (items : List Json)
  | dict (members : List (Str × Json))

instance : Inhabited Json := ⟨.null⟩

/-! ## Dictionaries -/

section Dict

variable {V : Type}

/-- `d.get(k)`. -/
def dictGet (d : List (Str × V)) (k : Str) : Option V := (d.find? (·.1 == k)).map (·.2)

/-- `d[k] = v`: in place, or at the end. -/
def dictSet (d : List (Str × V)) (k : Str) (v : V) : List (Str × V) :=
  if d.any (·.1 == k) then d.map fun kv => if kv.1 == k then (k, v) else kv
  else d ++ [(k, v)]

theorem dictSet_of_not_mem {d : List (Str × V)} {k : Str} (h : ∀ kv ∈ d, kv.1 ≠ k) (v : V) :
    dictSet d k v = d ++ [(k, v)] := by
  rw [dictSet, if_neg]
  simp only [List.any_eq_true, beq_iff_eq, not_exists, not_and]
  exact h

@[simp] theorem dictGet_nil (k : Str) : dictGet ([] : List (Str × V)) k = none := rfl

theorem dictGet_cons (kv : Str × V) (d : List (Str × V)) (k : Str) :
    dictGet (kv :: d) k = if kv.1 = k then some kv.2 else dictGet d k := by
  unfold dictGet
  by_cases h : kv.1 = k <;> simp [h]

theorem dictGet_append (d d' : List (Str × V)) (k : Str) :
    dictGet (d ++ d') k = (dictGet d k).or (dictGet d' k) := by
  induction d with
  | nil => rfl
  | cons kv d ih =>
    rw [List.cons_append, dictGet_cons, dictGet_cons, ih]
    split <;> rfl

theorem dictGet_eq_none {d : List (Str × V)} {k : Str} :
    dictGet d k = none ↔ ∀ kv ∈ d, kv.1 ≠ k := by
  simp [dictGet]

/-- What was set is read back. -/
@[simp] theorem dictGet_dictSet_self (d : List (Str × V)) (k : Str) (v : V) :
    dictGet (dictSet d k v) k = some v := by
  unfold dictSet
  split
  · next h =>
    induction d with
    | nil => simp at h
    | cons kv d ih =>
      rw [List.map_cons, dictGet_cons]
      by_cases hk : kv.1 = k
      · simp [hk]
      · have hd : d.any (·.1 == k) = true := by simpa [hk] using h
        simpa [hk] using ih hd
  · next h =>
    have hnone : dictGet d k = none := by
      simp only [List.any_eq_true, beq_iff_eq, not_exists, not_and] at h
      exact dictGet_eq_none.mpr h
    rw [dictGet_append, hnone]
    simp [dictGet_cons]

/-- Setting a key leaves the others alone. -/
theorem dictGet_dictSet_of_ne {k k' : Str} (h : k' ≠ k) (d : List (Str × V)) (v : V) :
    dictGet (dictSet d k v) k' = dictGet d k' := by
  unfold dictSet
  split
  · clear * - h
    induction d with
    | nil => rfl
    | cons kv d ih =>
      rw [List.map_cons, dictGet_cons, dictGet_cons, ih]
      by_cases hk : kv.1 = k
      · simp [hk, Ne.symm h]
      · simp [hk]
  · rw [dictGet_append]
    simp [dictGet_cons, Ne.symm h]

end Dict

/-! ## Operations on any value -/

namespace Json

/-- `bool(value)`. -/
def truthy : Json → Bool
  | .null => false
  | .bool b => b
  | .int n => n != 0
  | .float repr => repr != ("0.0" : Str) && repr != ("-0.0" : Str)
  | .str s => s != []
  | .list items => !items.isEmpty
  | .dict members => !members.isEmpty

def isNone : Json → Bool
  | .null => true
  | _ => false

def isStr : Json → Bool
  | .str _ => true
  | _ => false

def isDict : Json → Bool
  | .dict _ => true
  | _ => false

/-- `value is True`. -/
def isTrue : Json → Bool
  | .bool true => true
  | _ => false

/-- `value.get(k, default)`. -/
def get (value : Json) (k : Str) (default : Json) : Except Raised Json :=
  match value with
  | .dict members => .ok ((dictGet members k).getD default)
  | _ => .error .attributeError

/-- The elements that a `for` loop goes through. -/
def elements : Json → Except Raised (List Json)
  | .list items => .ok items
  | .str s => .ok (s.map fun c => .str [c])
  | .dict members => .ok (members.map fun kv => .str kv.1)
  | _ => .error .typeError

/-- A string, for a method that only strings have. -/
def asStr : Json → Except Raised Str
  | .str s => .ok s
  | _ => .error .attributeError

@[simp] theorem asStr_str (s : Str) : asStr (.str s) = .ok s := rfl

end Json

/-! ## Texts of documents -/

/-- The text of bytes that are all ASCII. -/
def asciiText (content : Bytes) : Str := content.map fun b => Char.ofNat b.toNat

/-- An `a` element: its attributes and its text. -/
structure Anchor where
  attrs : List (Str × Str)
  text : Str
  deriving DecidableEq, Repr

/-- `anchor.get(k)`. -/
def Anchor.get (a : Anchor) (k : Str) : Option Str := dictGet a.attrs k

/-- What `json` and `BeautifulSoup` do to texts. -/
structure Documents where
  /-- `json.loads`. -/
  loads : Str → Except Raised Json
  /-- `json.loads` of bytes, which detects their encoding. -/
  loadsBytes : Bytes → Except Raised Json
  /-- `json.dumps`. -/
  dumps : Json → Str
  /-- `json.dumps` with the separators `,` and `:`. -/
  dumpsCompact : Json → Str
  /-- A value that is not a string, in an f-string. -/
  format : Json → Str
  /-- `soup.find_all("a")`. -/
  anchors : Str → Except Raised (List Anchor)
  /-- `str(soup)` after the attributes of the `a` elements have been changed. -/
  withAnchors : Str → List Anchor → Str

/-- `f"{value}"`. -/
def Documents.text (D : Documents) : Json → Str
  | .str s => s
  | value => D.format value

@[simp] theorem Documents.text_str (D : Documents) (s : Str) : D.text (.str s) = s := rfl

end ProxyCache.Python
