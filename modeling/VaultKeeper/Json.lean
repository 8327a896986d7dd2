import VaultKeeper.PrefixCode
import VaultKeeper.Types

/-!
# JSON Values

`serde_json::Value` as the ledger crate uses it: a ledger entry is an object, read with
`e["key"]`, `as_str` and `as_i64`, and compared and hashed by its text `to_string()`.
Objects are association lists in the order of their keys, the order in which a
`serde_json::Map` prints them.

## Main results

* `escape_isPrefixCode`: the escapes of a JSON string are a prefix code.
* `quote_append_inj`: a quoted string is determined whatever text follows it.
* `fieldsText_append_inj`: so is an object whose keys are known and whose values are.
-/

namespace VaultKeeper

open PrefixCode

/-- A JSON number: an integer, or a float, which is kept as the text it is printed with. -/
inductive JsonNumber
  | int (n : ℤ)
  | float (text : String)
deriving DecidableEq

/-- A JSON value. -/
inductive Value
  | null
  | bool (b : Bool)
  | number (n : JsonNumber)
  | string (s : String)
  | array (elems : List Value)
  | object (fields : List (String × Value))

/-- The bytes of a text in UTF-8. -/
def utf8 (s : String) : Bytes :=
  s.toByteArray.data.toList

theorem utf8_injective : Function.Injective utf8 := by
  intro s t h
  exact String.toByteArray_inj.mp (ByteArray.ext (Array.toList_inj.mp h))

/-! ### Text -/

/-- The text of one character inside a JSON string. -/
def escapeChar (c : Char) : List Char :=
  if c = '"' then ['\\', '"']
  else if c = '\\' then ['\\', '\\']
  else if c.toNat = 8 then ['\\', 'b']
  else if c.toNat = 12 then ['\\', 'f']
  else if c.toNat = 10 then ['\\', 'n']
  else if c.toNat = 13 then ['\\', 'r']
  else if c.toNat = 9 then ['\\', 't']
  else if c.toNat < 32 then
    ['\\', 'u', '0', '0', hexDigit (c.toNat / 16), hexDigit (c.toNat % 16)]
  else [c]

/-- A string between quotation marks. -/
def quote (s : String) : String :=
  "\"" ++ String.ofList (s.toList.flatMap escapeChar) ++ "\""

mutual

/-- `to_string`: compact JSON text. -/
def Value.toText : Value → String
  | .null => "null"
  | .bool b => toString b
  | .number (.int n) => toString n
  | .number (.float text) => text
  | .string s => quote s
  | .array elems => "[" ++ Value.elemsText elems ++ "]"
  | .object fields => "\x7b" ++ Value.fieldsText fields ++ "\x7d"

/-- The elements of an array, with commas between them. -/
def Value.elemsText : List Value → String
  | [] => ""
  | [v] => v.toText
  | v :: w :: rest => v.toText ++ "," ++ Value.elemsText (w :: rest)

/-- The fields of an object, with commas between them. -/
def Value.fieldsText : List (String × Value) → String
  | [] => ""
  | [(key, v)] => quote key ++ ":" ++ v.toText
  | (key, v) :: field :: rest =>
      quote key ++ ":" ++ v.toText ++ "," ++ Value.fieldsText (field :: rest)

end

/-! ### Access -/

/-- `v["key"]`: null when the value is no object or has no such field. -/
def Value.get (v : Value) (key : String) : Value :=
  match v with
  | .object fields => (fields.lookup key).getD .null
  | _ => .null

/-- `as_str`. -/
def Value.asStr : Value → Option String
  | .string s => some s
  | _ => none

/-- `as_i64`: integers in the range of `i64`. -/
def Value.asI64 : Value → Option ℤ
  | .number (.int n) => if -(2 ^ 63) ≤ n ∧ n < 2 ^ 63 then some n else none
  | _ => none

/-! ### Quoted strings -/

/-- The character whose text a list begins with. -/
def readEscaped : List Char → Option Char
  | '\\' :: 'b' :: _ => some (Char.ofNat 8)
  | '\\' :: 'f' :: _ => some (Char.ofNat 12)
  | '\\' :: 'n' :: _ => some (Char.ofNat 10)
  | '\\' :: 'r' :: _ => some (Char.ofNat 13)
  | '\\' :: 't' :: _ => some (Char.ofNat 9)
  | '\\' :: 'u' :: '0' :: '0' :: hi :: lo :: _ => do
      let h ← hexValue hi
      let l ← hexValue lo
      pure (Char.ofNat (16 * h + l))
  | '\\' :: c :: _ => some c
  | c :: _ => some c
  | [] => none

/-- The first character of an escaped text is read back. -/
theorem readEscaped_escapeChar (c : Char) (x : List Char) :
    readEscaped (escapeChar c ++ x) = some c := by
  have hcode : ∀ n, c.toNat = n → Char.ofNat n = c := by
    rintro _ rfl
    exact c.ofNat_toNat
  rw [escapeChar]
  split_ifs with hquote hslash h8 h12 h10 h13 h9 hctl
  · subst hquote
    rfl
  · subst hslash
    rfl
  · exact congrArg some (hcode 8 h8)
  · exact congrArg some (hcode 12 h12)
  · exact congrArg some (hcode 10 h10)
  · exact congrArg some (hcode 13 h13)
  · exact congrArg some (hcode 9 h9)
  · have hsum : 16 * (c.toNat / 16) + c.toNat % 16 = c.toNat := by omega
    simp [readEscaped, hexValue_hexDigit (show c.toNat / 16 < 16 by omega),
      hexValue_hexDigit (show c.toNat % 16 < 16 by omega), hsum]
  · simp [readEscaped, hslash]

/-- The escapes of a JSON string are a prefix code. -/
theorem escape_isPrefixCode : IsPrefixCode escapeChar :=
  .of_reader readEscaped readEscaped_escapeChar

/-- No escape begins with a quotation mark. -/
theorem escapeChar_ne_quote (c : Char) (x y : List Char) : escapeChar c ++ x ≠ '"' :: y := by
  rw [escapeChar]
  split_ifs with hquote <;> simp [hquote]

/-- A quoted string is determined whatever follows it, and so is what follows. -/
theorem quote_append_inj {s t x y : String} (h : quote s ++ x = quote t ++ y) :
    s = t ∧ x = y := by
  have hlist := congrArg String.toList h
  simp only [quote, String.toList_append, String.toList_ofList, List.append_assoc] at hlist
  obtain ⟨hst, hxy⟩ := escape_isPrefixCode.flatMap_stop escapeChar_ne_quote
    (List.append_cancel_left hlist)
  exact ⟨String.toList_inj.mp hst, String.toList_inj.mp hxy⟩

/-! ### Objects -/

/-- The texts of two values are told apart whatever follows them. -/
def ToldApart (v w : Value) : Prop :=
  ∀ x y, v.toText ++ x = w.toText ++ y → v = w ∧ x = y

theorem toldApart_self (v : Value) : ToldApart v v :=
  fun _ _ h => ⟨rfl, (String.append_right_inj _).mp h⟩

theorem toldApart_string (s t : String) : ToldApart (.string s) (.string t) := by
  intro x y h
  simp only [Value.toText] at h
  obtain ⟨rfl, hxy⟩ := quote_append_inj h
  exact ⟨rfl, hxy⟩

/-- Objects with one list of keys, and values that are told apart, are told apart. -/
theorem fieldsText_append_inj {fs gs : List (String × Value)}
    (h : List.Forall₂ (fun f g => f.1 = g.1 ∧ ToldApart f.2 g.2) fs gs) {x y : String}
    (heq : Value.fieldsText fs ++ x = Value.fieldsText gs ++ y) : fs = gs ∧ x = y := by
  induction h with
  | nil => simpa [Value.fieldsText] using heq
  | @cons f g fs gs hfg htail ih =>
      obtain ⟨key, v⟩ := f
      obtain ⟨_, w⟩ := g
      obtain ⟨rfl, hvw⟩ := hfg
      cases htail with
      | nil =>
          simp only [Value.fieldsText, String.append_assoc, String.append_right_inj] at heq
          obtain ⟨rfl, hxy⟩ := hvw _ _ heq
          exact ⟨rfl, hxy⟩
      | cons hhead htail =>
          simp only [Value.fieldsText, String.append_assoc, String.append_right_inj] at heq
          obtain ⟨rfl, hrest⟩ := hvw _ _ heq
          obtain ⟨htails, hxy⟩ := ih ((String.append_right_inj _).mp hrest)
          exact ⟨by rw [htails], hxy⟩

end VaultKeeper
