import SentenceGrammar.Proofs.Words

/-!
# Scanning the bytes of a number

The characters of numbers take one byte each, and no other character has such a byte. So a scan of
the bytes of a text finds the same numbers as a scan of its characters. In particular it never stops
within a character.

## Main result

`scanBytes_eq`: scanning the bytes from a place on is scanning the characters from there on.
-/
namespace SentenceGrammar

namespace Text

/-- The bytes of a text in UTF-8. -/
def bytes (text : List Char) : List UInt8 := text.flatMap String.utf8EncodeChar

theorem bytes_append (front back : List Char) : bytes (front ++ back) = bytes front ++ bytes back :=
  List.flatMap_append

theorem length_bytes (text : List Char) : (bytes text).length = byteSize text := by
  induction text with
  | nil => rfl
  | cons c rest ih =>
    rw [bytes, List.flatMap_cons, List.length_append, String.length_utf8EncodeChar, byteSize_cons]
    exact congrArg _ ih

/-- A character of ASCII is one byte, and any other one begins with a byte that is none. -/
theorem bytes_cons (c : Char) (rest : List Char) :
    ∃ byte more, bytes (c :: rest) = byte :: more ∧
      (byte.toNat = c.toNat ∧ more = bytes rest ∧ c.utf8Size = 1 ∨
        128 ≤ byte.toNat ∧ 128 ≤ c.toNat) := by
  rw [bytes, List.flatMap_cons, String.utf8EncodeChar]
  split
  next ascii =>
    have small : c.toNat < 256 := Nat.lt_of_le_of_lt ascii (by decide)
    refine ⟨_, _, rfl, .inl ⟨?_, rfl, ?_⟩⟩
    · simpa using Nat.mod_eq_of_lt small
    · exact Char.utf8Size_eq_one_iff.mpr ascii
  next other =>
    have wide : 128 ≤ c.toNat := Nat.not_le.mp other
    repeat' split
    all_goals
      refine ⟨_, _, rfl, .inr ⟨?_, wide⟩⟩
      rw [UInt8.toNat_ofNat']
      omega

end Text

namespace Matching

open Text (bytes isAsciiDigit)

/-! ### Scans of bytes -/

/-- What became of a scan of bytes: the offsets where it may stop, and where it could not go on. -/
structure ByteScan where
  stops : List Nat
  reached : Nat
  rest : List UInt8
  deriving DecidableEq

def ByteScan.digits (stops : List Nat) (offset : Nat) : List UInt8 → ByteScan
  | [] => ⟨stops, offset, []⟩
  | byte :: rest =>
    if 48 ≤ byte ∧ byte ≤ 57 then digits ((offset + 1) :: stops) (offset + 1) rest
    else ⟨stops, offset, byte :: rest⟩

/-- The offset behind an optional byte, and the bytes behind it. -/
def skipByte (wanted : List UInt8) (offset : Nat) : List UInt8 → Nat × List UInt8
  | [] => (offset, [])
  | byte :: rest => if byte ∈ wanted then (offset + 1, rest) else (offset, byte :: rest)

/-- An optional `+` or `-` and digits. -/
def ByteScan.signed (stops : List Nat) (offset : Nat) (rest : List UInt8) : ByteScan :=
  let (offset, rest) := skipByte [43, 45] offset rest
  digits stops offset rest

/-- A `.` with optional digits. -/
def ByteScan.places (scan : ByteScan) : ByteScan :=
  match scan.rest with
  | [] => scan
  | byte :: rest =>
    if byte = 46 then
      let behind := scan.reached + 1
      digits (if scan.stops = [] then [] else behind :: scan.stops) behind rest
    else scan

/-- An `e` or `E` with a signed row of digits. -/
def ByteScan.exponent (scan : ByteScan) : ByteScan :=
  let (offset, rest) := skipByte [101, 69] scan.reached scan.rest
  if scan.stops = [] ∨ offset = scan.reached then scan else signed scan.stops offset rest

/-- A number, read byte by byte. -/
def scanBytes (isFloat : Bool) (offset : Nat) (rest : List UInt8) : ByteScan :=
  let whole := ByteScan.signed [] offset rest
  if isFloat then whole.places.exponent else whole

/-! ### The same places -/

/-- The same scan, with offsets for places. -/
def Scan.offsets (scan : Scan) : ByteScan :=
  ⟨scan.stops.map Cursor.offset, scan.reached.offset, bytes scan.reached.rest⟩

theorem digits_eq (stops : List Cursor) (offset : Nat) (rest : List Char) :
    ByteScan.digits (stops.map Cursor.offset) offset (bytes rest) =
      (scanDigits stops offset rest).offsets := by
  induction rest generalizing stops offset with
  | nil => rfl
  | cons c rest ih =>
    obtain ⟨byte, more, known, ascii | wide⟩ := Text.bytes_cons c rest
    · obtain ⟨same, rfl, size⟩ := ascii
      have digit : (48 ≤ byte ∧ byte ≤ 57) ↔ isAsciiDigit c = true := by
        simp only [UInt8.le_iff_toNat_le, isAsciiDigit, Bool.and_eq_true, decide_eq_true_eq,
          Char.le_def, UInt32.le_iff_toNat_le]
        rw [same]
        rfl
      rw [known, ByteScan.digits, scanDigits]
      by_cases accepted : isAsciiDigit c = true
      · rw [if_pos (digit.mpr accepted), if_pos accepted, size]
        exact ih (⟨offset + 1, rest⟩ :: stops) (offset + 1)
      · rw [if_neg (mt digit.mp accepted), if_neg accepted, Scan.offsets, known]
    · have refused : ¬(48 ≤ byte ∧ byte ≤ 57) := by
        rw [UInt8.le_iff_toNat_le, UInt8.le_iff_toNat_le]
        intro digit
        have bound : byte.toNat ≤ 57 := digit.2
        omega
      have other : ¬isAsciiDigit c = true := by
        simp only [isAsciiDigit, Bool.and_eq_true, decide_eq_true_eq, Char.le_def,
          UInt32.le_iff_toNat_le]
        intro digit
        have bound : c.toNat ≤ 57 := digit.2
        omega
      rw [known, ByteScan.digits, scanDigits, if_neg refused, if_neg other, Scan.offsets, known]

-- The bytes and the characters that may be skipped go together.
private theorem mem_codes (chars : List Char) (ascii : ∀ c ∈ chars, c.toNat < 128) {byte : UInt8}
    {c : Char} (head : byte.toNat = c.toNat ∨ 128 ≤ byte.toNat ∧ 128 ≤ c.toNat) :
    byte ∈ chars.map (fun c => UInt8.ofNat c.toNat) ↔ c ∈ chars := by
  have code {d : Char} (member : d ∈ chars) : (UInt8.ofNat d.toNat).toNat = d.toNat := by
    rw [UInt8.toNat_ofNat']
    exact Nat.mod_eq_of_lt (Nat.lt_trans (ascii d member) (by decide))
  rw [List.mem_map]
  constructor
  · rintro ⟨d, member, rfl⟩
    rw [code member] at head
    rcases head with same | ⟨wide, -⟩
    · exact Char.toNat_inj.mp same ▸ member
    · exact absurd (ascii d member) (Nat.not_lt.mpr wide)
  · intro member
    rcases head with same | ⟨-, wide⟩
    · exact ⟨c, member, by rw [← same, UInt8.ofNat_toNat]⟩
    · exact absurd (ascii c member) (Nat.not_lt.mpr wide)

theorem skipByte_eq (chars : List Char) (ascii : ∀ c ∈ chars, c.toNat < 128) (start : Cursor) :
    skipByte (chars.map fun c => UInt8.ofNat c.toNat) start.offset (bytes start.rest) =
      ((skipOne chars start).offset, bytes (skipOne chars start).rest) := by
  obtain ⟨offset, rest⟩ := start
  cases rest with
  | nil => rfl
  | cons c rest =>
    obtain ⟨byte, more, known, head⟩ := Text.bytes_cons c rest
    have wanted := mem_codes chars ascii (head.imp_left And.left)
    simp only [known, skipByte, skipOne, List.contains_iff_mem, wanted]
    split
    next member =>
      -- What is skipped is one byte.
      obtain ⟨-, rfl, size⟩ | ⟨-, wide⟩ := head
      · simp [Cursor.past, size]
      · exact absurd (ascii c member) (Nat.not_lt.mpr wide)
    · rw [known]

theorem signed_eq (stops : List Cursor) (start : Cursor) :
    ByteScan.signed (stops.map Cursor.offset) start.offset (bytes start.rest) =
      (scanDigits stops (skipOne ['+', '-'] start).offset
        (skipOne ['+', '-'] start).rest).offsets := by
  have skipped := skipByte_eq ['+', '-'] (by simp) start
  rw [ByteScan.signed]
  change skipByte [43, 45] _ _ = _ at skipped
  rw [skipped]
  exact digits_eq _ _ _

theorem places_eq (scan : Scan) : scan.offsets.places = (scanPlaces scan).offsets := by
  obtain ⟨stops, offset, rest⟩ := scan
  cases rest with
  | nil => rfl
  | cons c rest =>
    obtain ⟨byte, more, known, head⟩ := Text.bytes_cons c rest
    have point : byte = 46 ↔ c = '.' := by
      have wanted : byte ∈ [46] ↔ c ∈ ['.'] := mem_codes ['.'] (by simp)
        (head.imp_left And.left)
      simpa only [List.mem_singleton] using wanted
    by_cases same : c = '.'
    · obtain ⟨-, rfl, -⟩ | ⟨-, wide⟩ := head
      · subst same
        have characters : scanPlaces ⟨stops, ⟨offset, '.' :: rest⟩⟩ =
            scanDigits (if stops = [] then [] else ⟨offset + 1, rest⟩ :: stops) (offset + 1) rest :=
          rfl
        have both : (if stops = [] then [] else (offset + 1) :: stops.map Cursor.offset) =
            (if stops = [] then [] else ⟨offset + 1, rest⟩ :: stops).map Cursor.offset := by
          split <;> rfl
        simp only [ByteScan.places, Scan.offsets, known, if_pos (point.mpr rfl), List.map_eq_nil_iff]
        rw [both, digits_eq, characters]
        rfl
      · rw [same] at wide
        exact absurd wide (by decide)
    · simp only [ByteScan.places, Scan.offsets, known, if_neg (mt point.mp same)]
      unfold scanPlaces
      split
      next rest' shape => exact absurd (List.cons.inj shape).1 same
      next => rw [known]

theorem exponent_eq (scan : Scan) : scan.offsets.exponent = (scanExponent scan).offsets := by
  have mark := skipByte_eq ['e', 'E'] (by simp) scan.reached
  change skipByte [101, 69] _ _ = _ at mark
  simp only [ByteScan.exponent, Scan.offsets, mark, scanExponent, List.map_eq_nil_iff]
  split
  · rfl
  · exact signed_eq _ _

/-- Wherever a number is read, the bytes of the text lead to the same places as its characters. -/
theorem scanBytes_eq (isFloat : Bool) (start : Cursor) :
    scanBytes isFloat start.offset (bytes start.rest) = (scanNumber isFloat start).offsets := by
  have whole : ByteScan.signed [] start.offset (bytes start.rest) = (scanWhole start).offsets :=
    signed_eq [] start
  rw [scanBytes, whole, scanNumber]
  cases isFloat with
  | false => rfl
  | true => exact (congrArg _ (places_eq _)).trans (exponent_eq _)

end Matching
end SentenceGrammar
