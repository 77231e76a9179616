import Mathlib
import Tokamak.Codes

/-! JSON, as far as the trace needs it: objects of integers and strings. The characters of strings and
texts stand for bytes. What the text of an object is is up to `dump()` of the JSON library, which is a
parameter. What is relied on is that a text has no line end, that no other object has it, and that `dump()`
throws at nothing but a string which is not UTF-8. A `dump()` for ASCII strings has all of this: it writes
no blanks, the members of an object in the order of their keys, and control characters escaped. -/

namespace Tokamak

/-- An exception of the JSON library. -/
inductive JsonException where
  | parseError
  | other
  deriving DecidableEq, Repr

inductive JsonValue where
  | integer (n : Int)
  | string (s : String)
  deriving DecidableEq, Repr

/-- An object: its members in the ascending order of their keys. -/
structure JsonObject where
  members : List (String × JsonValue)
  ascending : (members.map fun entry => entry.1).Pairwise (· < ·)

namespace Json

def isAscii (s : String) : Bool := s.toList.all fun c => decide (c.toNat < 128)

end Json

/-- All strings of the object are ASCII, and so UTF-8. -/
def JsonObject.isAscii (object : JsonObject) : Bool :=
  object.members.all fun entry =>
    Json.isAscii entry.1 && match entry.2 with
      | .integer _ => true
      | .string s => Json.isAscii s

/-- `dump()`, without indentation. -/
abbrev JsonDump := JsonObject → Except JsonException (List Char)

/-- What is known of `dump()`. -/
structure JsonDump.Documented (dump : JsonDump) : Prop where
  /-- A line end in a string is escaped, and without indentation there is no other. -/
  oneLine : ∀ object text, dump object = .ok text → '\n' ∉ text
  /-- `parse` gives the object back. -/
  injective : ∀ a b text, dump a = .ok text → dump b = .ok text → a = b
  /-- It throws only if a string is not UTF-8. -/
  ascii : ∀ object, object.isAscii = true → ∃ text, dump object = .ok text

/-! ### A `dump()` for ASCII strings -/

namespace Json

def integerText : Int → List Char
  | .ofNat n => Nat.toDigits 10 n
  | .negSucc n => '-' :: Nat.toDigits 10 (n + 1)

/-- A control character without a name of its own. -/
def controlText (n : Nat) : List Char :=
  ['\\', 'u', '0', '0', (n / 16).digitChar, (n % 16).digitChar]

def escape (c : Char) : List Char :=
  if c = '"' then ['\\', '"']
  else if c = '\\' then ['\\', '\\']
  else if c.toNat = 8 then ['\\', 'b']
  else if c = '\t' then ['\\', 't']
  else if c = '\n' then ['\\', 'n']
  else if c.toNat = 12 then ['\\', 'f']
  else if c = '\r' then ['\\', 'r']
  else if c.toNat < 32 then controlText c.toNat
  else [c]

def stringText (s : String) : List Char := '"' :: s.toList.flatMap escape ++ ['"']

def valueText : JsonValue → List Char
  | .integer n => integerText n
  | .string s => stringText s

def memberText (entry : String × JsonValue) : List Char :=
  stringText entry.1 ++ ':' :: valueText entry.2

def objectText (object : JsonObject) : List Char :=
  '{' :: List.intercalate [','] (object.members.map memberText) ++ ['}']

/-- The text of an object whose strings are ASCII; at any other one it throws. Where a fixed trace is
written, this is `dump()`. -/
def asciiDump : JsonDump := fun object =>
  if object.isAscii then .ok (objectText object) else .error .other

/-- No character of a text is a control character. -/
def Printable (text : List Char) : Prop := ∀ c ∈ text, 32 ≤ c.toNat

theorem Printable.append {front back : List Char} (h : Printable front) (h' : Printable back) :
    Printable (front ++ back) := by
  intro c hc
  rcases List.mem_append.mp hc with hc | hc
  · exact h c hc
  · exact h' c hc

theorem Printable.cons {c : Char} {rest : List Char} (hc : 32 ≤ c.toNat) (h : Printable rest) :
    Printable (c :: rest) := by
  intro d hd
  rcases List.mem_cons.mp hd with rfl | hd
  · exact hc
  · exact h d hd

theorem printable_nil : Printable [] := fun _ hc => absurd hc List.not_mem_nil

/-- A character of an integer. -/
def isNumeral (c : Char) : Bool := c.isDigit || c == '-'

theorem isNumeral_integerText (n : Int) : ∀ c ∈ integerText n, isNumeral c = true := by
  have hdigits : ∀ n : Nat, ∀ c ∈ Nat.toDigits 10 n, isNumeral c = true := by
    intro n c hc
    unfold isNumeral
    rw [Nat.isDigit_of_mem_toDigits (by decide) le_rfl hc, Bool.true_or]
  cases n with
  | ofNat n => exact hdigits n
  | negSucc n =>
      intro c hc
      rcases List.mem_cons.mp hc with rfl | hc
      · rfl
      · exact hdigits (n + 1) c hc

theorem toDigits_injective : Function.Injective (Nat.toDigits 10) := by
  intro m n h
  rw [← Nat.ofDigitChars_ten_toDigits (n := m), h, Nat.ofDigitChars_ten_toDigits]

theorem integerText_injective : Function.Injective integerText := by
  have hminus : ∀ m n : Nat, Nat.toDigits 10 m ≠ '-' :: Nat.toDigits 10 n := by
    intro m n h
    have hdigit : '-'.isDigit = true :=
      Nat.isDigit_of_mem_toDigits (n := m) (by decide) le_rfl (h ▸ List.mem_cons_self)
    exact absurd hdigit (by decide)
  intro m n h
  cases m with
  | ofNat m =>
      cases n with
      | ofNat n => exact congrArg Int.ofNat (toDigits_injective h)
      | negSucc n => exact absurd h (hminus m (n + 1))
  | negSucc m =>
      cases n with
      | ofNat n => exact absurd h.symm (hminus n (m + 1))
      | negSucc n =>
          have hsucc : m + 1 = n + 1 := toDigits_injective (List.cons.inj h).2
          exact congrArg Int.negSucc (Nat.succ.inj hsucc)

theorem readable_integerText : Codes.Readable integerText fun c => isNumeral c = false :=
  .of_kind integerText_injective isNumeral_integerText

/-- The value of a hexadecimal digit. -/
def hexValue (c : Char) : Nat := if c.isDigit then c.toNat - 48 else c.toNat - 87

/-- What stands behind a backslash. -/
def unescapeNamed : List Char → Option (Char × List Char)
  | 'b' :: rest => some (Char.ofNat 8, rest)
  | 't' :: rest => some ('\t', rest)
  | 'n' :: rest => some ('\n', rest)
  | 'f' :: rest => some (Char.ofNat 12, rest)
  | 'r' :: rest => some ('\r', rest)
  | 'u' :: '0' :: '0' :: high :: low :: rest =>
      some (Char.ofNat (16 * hexValue high + hexValue low), rest)
  | c :: rest => some (c, rest)
  | [] => none

/-- The first character of the inside of a string, and what is left. -/
def unescape : List Char → Option (Char × List Char)
  | [] => none
  | c :: rest => if c = '\\' then unescapeNamed rest else some (c, rest)

theorem digitChar_spec : ∀ d < 16, 32 ≤ d.digitChar.toNat ∧ hexValue d.digitChar = d := by decide

theorem printable_controlText (n : Nat) (h : n < 32) : Printable (controlText n) := by
  have hhigh := (digitChar_spec (n / 16) (by omega)).1
  have hlow := (digitChar_spec (n % 16) (by omega)).1
  exact .cons (by decide) (.cons (by decide) (.cons (by decide) (.cons (by decide)
    (.cons hhigh (.cons hlow printable_nil)))))

theorem hexValue_controlText (n : Nat) (h : n < 32) :
    16 * hexValue (n / 16).digitChar + hexValue (n % 16).digitChar = n := by
  rw [(digitChar_spec (n / 16) (by omega)).2, (digitChar_spec (n % 16) (by omega)).2]
  exact Nat.div_add_mod n 16

theorem unescape_escape (c : Char) (rest : List Char) : unescape (escape c ++ rest) = some (c, rest) := by
  have hcode : ∀ n, c.toNat = n → c = Char.ofNat n := by
    intro n h
    rw [← h, Char.ofNat_toNat]
  unfold escape
  split_ifs with hquote hbackslash hb ht hn hf hr hcontrol
  · rw [hquote]; rfl
  · rw [hbackslash]; rfl
  · rw [hcode 8 hb]; rfl
  · rw [ht]; rfl
  · rw [hn]; rfl
  · rw [hcode 12 hf]; rfl
  · rw [hr]; rfl
  · change some (Char.ofNat (16 * hexValue (c.toNat / 16).digitChar +
      hexValue (c.toNat % 16).digitChar), rest) = _
    rw [hexValue_controlText c.toNat hcontrol, Char.ofNat_toNat]
  · exact if_neg hbackslash

theorem printable_escape (c : Char) : Printable (escape c) := by
  unfold escape
  by_cases hcontrol : c.toNat < 32
  · rw [if_pos hcontrol]
    split_ifs
    case neg => exact printable_controlText c.toNat hcontrol
    all_goals exact .cons (by decide) (.cons (by decide) printable_nil)
  · rw [if_neg hcontrol]
    split_ifs
    case neg => exact .cons (Nat.le_of_not_lt hcontrol) printable_nil
    all_goals exact .cons (by decide) (.cons (by decide) printable_nil)

theorem readable_escape : Codes.Readable escape fun _ => True :=
  .of_read unescape (fun c x _ => unescape_escape c x)

theorem escape_begins (c : Char) : ∃ d w, escape c = d :: w ∧ d ≠ '"' := by
  unfold escape
  by_cases hquote : c = '"'
  · rw [if_pos hquote]
    exact ⟨'\\', _, rfl, by decide⟩
  · rw [if_neg hquote]
    split_ifs
    case neg => exact ⟨c, [], rfl, hquote⟩
    all_goals exact ⟨'\\', _, rfl, by decide⟩

theorem readable_stringText : Codes.Readable stringText fun _ => True := by
  intro s t x y hx hy h
  have hread : Codes.Readable (fun items : List Char => items.flatMap escape ++ ['"']) fun _ => True :=
    readable_escape.terminated escape_begins
  obtain ⟨hst, hxy⟩ := hread s.toList t.toList x y hx hy (List.cons.inj h).2
  exact ⟨String.toList_injective hst, hxy⟩

theorem integerText_begins (n : Int) : ∃ c w, integerText n = c :: w ∧ isNumeral c = true := by
  cases h : integerText n with
  | nil =>
      cases n with
      | ofNat n => exact absurd h Nat.toDigits_ne_nil
      | negSucc n => cases h
  | cons c w => exact ⟨c, w, rfl, isNumeral_integerText n c (by rw [h]; exact List.mem_cons_self)⟩

theorem readable_valueText : Codes.Readable valueText fun c => isNumeral c = false := by
  have hmixed : ∀ (n : Int) (s : String) (x y : List Char), integerText n ++ x ≠ stringText s ++ y := by
    intro n s x y h
    obtain ⟨c, w, hw, hc⟩ := integerText_begins n
    rw [hw] at h
    rw [(List.cons.inj h).1] at hc
    cases hc
  intro a b x y hx hy h
  cases a with
  | integer m =>
      cases b with
      | integer n =>
          obtain ⟨hmn, hxy⟩ := readable_integerText m n x y hx hy h
          exact ⟨congrArg _ hmn, hxy⟩
      | string t => exact absurd h (hmixed m t x y)
  | string s =>
      cases b with
      | integer n => exact absurd h.symm (hmixed n s y x)
      | string t =>
          obtain ⟨hst, hxy⟩ := readable_stringText s t x y (fun _ _ => trivial) (fun _ _ => trivial) h
          exact ⟨congrArg _ hst, hxy⟩

theorem readable_memberText : Codes.Readable memberText fun c => isNumeral c = false := by
  have hvalue : Codes.Readable (fun v => ':' :: valueText v) fun c => isNumeral c = false := by
    intro a b x y hx hy h
    exact readable_valueText a b x y hx hy (List.cons.inj h).2
  exact readable_stringText.pair hvalue (fun v => ⟨':', valueText v, rfl, trivial⟩)

/-- Different objects have different texts, and no text is a part of another one from its start on. -/
theorem readable_objectText : Codes.Readable objectText fun _ => True := by
  intro a b x y hx hy h
  have hread : Codes.Readable (fun entries : List (String × JsonValue) =>
      List.intercalate [','] (entries.map memberText) ++ ['\x7d']) fun _ => True :=
    readable_memberText.separated rfl rfl (by decide) (fun entry => ⟨'"', _, rfl, by decide⟩)
  obtain ⟨hmembers, hxy⟩ := hread a.members b.members x y hx hy (List.cons.inj h).2
  refine ⟨?_, hxy⟩
  cases a
  cases b
  cases hmembers
  rfl

theorem printable_integerText (n : Int) : Printable (integerText n) := by
  intro c hc
  have hnumeral := isNumeral_integerText n c hc
  unfold isNumeral at hnumeral
  rcases Bool.or_eq_true_iff.mp hnumeral with hdigit | hminus
  · exact Nat.le_trans (by decide) (Char.isDigit_iff_toNat.mp hdigit).1
  · rw [beq_iff_eq.mp hminus]
    decide

theorem printable_stringText (s : String) : Printable (stringText s) := by
  have hinside : Printable (s.toList.flatMap escape) := by
    intro c hc
    obtain ⟨d, -, hd⟩ := List.mem_flatMap.mp hc
    exact printable_escape d c hd
  exact (hinside.cons (c := '"') (by decide)).append (.cons (by decide) printable_nil)

theorem printable_memberText (entry : String × JsonValue) : Printable (memberText entry) := by
  refine (printable_stringText entry.1).append (.cons (by decide) ?_)
  cases entry.2 with
  | integer n => exact printable_integerText n
  | string s => exact printable_stringText s

theorem printable_objectText (object : JsonObject) : Printable (objectText object) := by
  have hinside : ∀ entries : List (String × JsonValue),
      Printable (List.intercalate [','] (entries.map memberText)) := by
    intro entries
    induction entries with
    | nil => exact printable_nil
    | cons entry rest ih =>
        cases rest with
        | nil =>
            rw [List.map_singleton, List.intercalate_singleton]
            exact printable_memberText entry
        | cons next rest =>
            rw [List.map_cons, List.map_cons, List.intercalate_cons_cons]
            exact ((printable_memberText entry).append (.cons (by decide) printable_nil)).append ih
  exact ((hinside object.members).cons (by decide)).append (.cons (by decide) printable_nil)

theorem asciiDump_eq_ok {object : JsonObject} {text : List Char} (h : asciiDump object = .ok text) :
    text = objectText object := by
  unfold asciiDump at h
  split_ifs at h
  exact (Except.ok.inj h).symm

/-- There are such functions as the library documents `dump()`. -/
theorem documented_asciiDump : JsonDump.Documented asciiDump where
  oneLine object text h hnewline := by
    rw [asciiDump_eq_ok h] at hnewline
    exact absurd (printable_objectText object '\n' hnewline) (by decide)
  injective a b text ha hb :=
    readable_objectText.injective ((asciiDump_eq_ok ha).symm.trans (asciiDump_eq_ok hb))
  ascii object h := ⟨objectText object, if_pos h⟩

end Json

end Tokamak
