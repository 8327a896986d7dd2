import VaultKeeper.Json

/-!
# Shard Metadata

The record that the shard store keeps beside each shard, and its JSON text.
`serde_json::to_string_pretty` and `serde_json::from_str` are not part of the repository;
they enter as a `MetaJson`, whose one law is that a printed record is read back.
`MetaJson.pretty` prints records in the layout of the pretty printer, field by field on
lines of their own, and reads exactly the texts that it prints.

## Main results

* `readUtf8_eq_some_iff`: the bytes that are read as a text are those of the text.
* `ShardMeta.read_append`: a printed record is read back in front of every text.
* `MetaJson.pretty_refusesCut`: a printed record that was cut short is refused.
-/

namespace VaultKeeper

open PrefixCode

/-- Metadata stored alongside each shard. -/
structure ShardMeta where
  chunkId : String
  shardIndex : UInt64
  size : UInt64
  blake3Hash : String
  createdAt : String
  lastVerified : String
deriving DecidableEq

/-- The text of bytes, when they are UTF-8. -/
def readUtf8 (b : Bytes) : Option String :=
  String.fromUTF8? ⟨b.toArray⟩

theorem readUtf8_eq_some_iff {b : Bytes} {s : String} : readUtf8 b = some s ↔ utf8 s = b := by
  rw [readUtf8, String.fromUTF8?]
  constructor
  · intro h
    split_ifs at h with hvalid
    obtain rfl := Option.some.inj h
    rfl
  · rintro rfl
    have hbytes : (⟨(utf8 s).toArray⟩ : ByteArray) = s.toByteArray := by
      rw [utf8, Array.toArray_toList]
    rw [hbytes, dif_pos s.isValidUTF8]
    rfl

@[simp] theorem readUtf8_utf8 (s : String) : readUtf8 (utf8 s) = some s :=
  readUtf8_eq_some_iff.mpr rfl

/-- Bytes that begin the bytes of a text, and are a text, begin the text. -/
theorem isPrefix_of_utf8_append {s t : String} {rest : Bytes} (h : utf8 s ++ rest = utf8 t) :
    s.toList <+: t.toList := by
  have hbytes : s.toByteArray ++ ⟨rest.toArray⟩ = t.toByteArray := by
    refine ByteArray.ext (Array.toList_inj.mp ?_)
    simpa [utf8] using h
  refine List.isPrefix_of_utf8Encode_append_eq_utf8Encode ⟨rest.toArray⟩ ?_
  rw [String.utf8Encode_toList, String.utf8Encode_toList, hbytes]

/-- `serde_json` for the metadata: printing, reading with the text of the error, and that a
printed record is read back. -/
structure MetaJson where
  toStringPretty : ShardMeta → String
  fromStr : String → Except String ShardMeta
  fromStr_toStringPretty : ∀ m, fromStr (toStringPretty m) = .ok m

/-- A printed record that was cut short is refused: an object is read to its closing brace. -/
def MetaJson.RefusesCut (json : MetaJson) : Prop :=
  ∀ m n text, n < (utf8 (json.toStringPretty m)).length →
    readUtf8 ((utf8 (json.toStringPretty m)).take n) = some text →
      ∃ e, json.fromStr text = .error e

/-! ### Readers -/

/-- What follows a given text. -/
def skip (text : String) (cs : List Char) : Option (List Char) :=
  cs.dropPrefix? text.toList

/-- A quoted string, with what follows it. -/
def readQuoted : List Char → Option (String × List Char)
  | '"' :: cs =>
      (readMessage readEscaped escapeChar '"' cs.length cs).map fun r => (String.ofList r.1, r.2)
  | _ => none

/-- A decimal number of 64 bits, with what follows it. -/
def readDecimal (cs : List Char) : Option (UInt64 × List Char) :=
  let digits := cs.takeWhile Char.isDigit
  let n := Nat.ofDigitChars 10 digits 0
  if digits = [] ∨ 2 ^ 64 ≤ n then none else some (UInt64.ofNat n, cs.dropWhile Char.isDigit)

@[simp] theorem skip_append (text : String) (x : List Char) :
    skip text (text.toList ++ x) = some x :=
  List.dropPrefix?_append_of_beq x (by simp)

@[simp] theorem readQuoted_append (s : String) (x : List Char) :
    readQuoted ((quote s).toList ++ x) = some (s, x) := by
  have hlength := length_le_length_flatMap escapeChar_ne_quote s.toList
  have hquote : (quote s).toList ++ x = '"' :: (s.toList.flatMap escapeChar ++ '"' :: x) := by
    simp [quote]
  rw [hquote, readQuoted, readMessage_append escapeChar_ne_quote readEscaped_escapeChar _ _
    (by rw [List.length_append, List.length_cons]; omega), Option.map_some, String.ofList_toList]

/-- A number is read back in front of a text that does not go on with a digit. -/
theorem readDecimal_append (n : UInt64) {c : Char} (hc : ¬ c.isDigit) (x : List Char) :
    readDecimal ((toString n).toList ++ c :: x) = some (n, c :: x) := by
  have hn : n.toNat < 2 ^ 64 := n.toNat_lt
  have htext : (toString n).toList = Nat.toDigits 10 n.toNat := Nat.toList_repr
  have hdigits : ∀ d ∈ Nat.toDigits 10 n.toNat, d.isDigit :=
    fun d => Nat.isDigit_of_mem_toDigits (by decide) (by decide)
  have htake : (Nat.toDigits 10 n.toNat ++ c :: x).takeWhile Char.isDigit =
      Nat.toDigits 10 n.toNat := by
    rw [List.takeWhile_append_of_pos hdigits, List.takeWhile_cons_of_neg hc, List.append_nil]
  have hdrop : (Nat.toDigits 10 n.toNat ++ c :: x).dropWhile Char.isDigit = c :: x := by
    rw [List.dropWhile_append_of_pos hdigits, List.dropWhile_cons_of_neg hc]
  have hne : Nat.toDigits 10 n.toNat ≠ [] := Nat.toDigits_ne_nil
  have hvalue : Nat.ofDigitChars 10 (Nat.toDigits 10 n.toNat) 0 = n.toNat :=
    Nat.ofDigitChars_toDigits (by decide) (by decide)
  simp only [readDecimal, htext, htake, hdrop, hvalue]
  rw [if_neg (not_or.mpr ⟨hne, by omega⟩), UInt64.ofNat_toNat]

/-! ### The pretty layout -/

/-- The text of a record, each field on a line of its own. -/
def ShardMeta.prettyText (m : ShardMeta) : String :=
  "\x7b\n  \"chunk_id\": " ++ quote m.chunkId ++
  ",\n  \"shard_index\": " ++ toString m.shardIndex ++
  ",\n  \"size\": " ++ toString m.size ++
  ",\n  \"blake3_hash\": " ++ quote m.blake3Hash ++
  ",\n  \"created_at\": " ++ quote m.createdAt ++
  ",\n  \"last_verified\": " ++ quote m.lastVerified ++ "\n\x7d"

/-- Read the text of a record, with what follows it. -/
def ShardMeta.read (cs : List Char) : Option (ShardMeta × List Char) := do
  let cs ← skip "\x7b\n  \"chunk_id\": " cs
  let (chunkId, cs) ← readQuoted cs
  let cs ← skip ",\n  \"shard_index\": " cs
  let (shardIndex, cs) ← readDecimal cs
  let cs ← skip ",\n  \"size\": " cs
  let (size, cs) ← readDecimal cs
  let cs ← skip ",\n  \"blake3_hash\": " cs
  let (blake3Hash, cs) ← readQuoted cs
  let cs ← skip ",\n  \"created_at\": " cs
  let (createdAt, cs) ← readQuoted cs
  let cs ← skip ",\n  \"last_verified\": " cs
  let (lastVerified, cs) ← readQuoted cs
  let cs ← skip "\n\x7d" cs
  pure ({ chunkId, shardIndex, size, blake3Hash, createdAt, lastVerified }, cs)

/-- A printed record is read back in front of every text. -/
theorem ShardMeta.read_append (m : ShardMeta) (x : List Char) :
    ShardMeta.read (m.prettyText.toList ++ x) = some (m, x) := by
  have hdecimal : ∀ (n : UInt64) (text : String) (y : List Char), text.toList.head? = some ',' →
      readDecimal ((toString n).toList ++ (text.toList ++ y)) = some (n, text.toList ++ y) := by
    intro n text y htext
    rw [List.head?_eq_some_iff] at htext
    obtain ⟨rest, hrest⟩ := htext
    rw [hrest, List.cons_append]
    exact readDecimal_append n (by decide) _
  unfold ShardMeta.prettyText
  simp only [ShardMeta.read, String.toList_append, List.append_assoc, skip_append,
    readQuoted_append, hdecimal _ ",\n  \"size\": " _ (by simp),
    hdecimal _ ",\n  \"blake3_hash\": " _ (by simp), Option.bind_eq_bind, Option.bind_some]
  rfl

/-- The pretty printer, with a reader of exactly the texts that it prints. -/
def MetaJson.pretty : MetaJson where
  toStringPretty := ShardMeta.prettyText
  fromStr s :=
    match ShardMeta.read s.toList with
    | some (m, _) => if m.prettyText = s then .ok m else .error "trailing characters"
    | none => .error "EOF while parsing a value"
  fromStr_toStringPretty m := by
    have hread := m.read_append []
    rw [List.append_nil] at hread
    simp only [hread, if_true]

/-- A printed record that was cut short is refused: what it would be read as has a text that
it begins with, and there is one record only whose text begins a printed record. -/
theorem MetaJson.pretty_refusesCut : MetaJson.pretty.RefusesCut := by
  intro m n text hn htext
  rw [readUtf8_eq_some_iff] at htext
  cases hfrom : MetaJson.pretty.fromStr text with
  | error e => exact ⟨e, rfl⟩
  | ok m' =>
      have hprinted : m'.prettyText = text := by
        simp only [MetaJson.pretty] at hfrom
        split at hfrom
        · split_ifs at hfrom with hprint
          obtain rfl := Except.ok.inj hfrom
          exact hprint
        · cases hfrom
      have happend : utf8 m'.prettyText ++ (utf8 m.prettyText).drop n = utf8 m.prettyText := by
        rw [hprinted, htext]
        exact List.take_append_drop _ _
      obtain ⟨x, hx⟩ := isPrefix_of_utf8_append happend
      have hread := m.read_append []
      rw [List.append_nil, ← hx, m'.read_append x, Option.some.injEq, Prod.mk.injEq] at hread
      obtain ⟨rfl, -⟩ := hread
      have hlength := congrArg List.length happend
      rw [List.length_append, List.length_drop] at hlength
      change n < (utf8 m'.prettyText).length at hn
      omega

end VaultKeeper
