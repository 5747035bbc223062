import Mathlib.Data.List.TakeWhile
import Mathlib.Data.Nat.Digits.Lemmas
import Mathlib.Data.Vector.Basic

/-!
# Byte encodings

The text and byte encodings that keys, hashes and signed messages pass
through: big-endian machine words, texts joined by a separator, hexadecimal,
base58 and base64 text, and JSON text.

What a verifier of signed bytes needs of an encoding is that nothing is lost
and that lengths are known, because fields are concatenated without
separators and sizes are limited. A big-endian word takes eight bytes and
determines the word; a base58 text has at least as many one-byte characters
as it stands for bytes, and at most twice as many
(`Base58.length_of_decode`), and decoding gives back what was encoded
(`Base58.decode_encode`); a JSON text is longer than the text itself. The
upper bound for base58 is not tight, but it is what parsing a concatenation
asks for, and it follows from `256 ≤ 58 ^ 2`.
-/

/-- A byte string. -/
abbrev Bytes : Type := List UInt8

/-! ## Machine words -/

/-- The word after one that is not the largest. -/
theorem UInt64.toNat_succ_of_lt {x : UInt64} (h : x.toNat + 1 < 2 ^ 64) :
    (x + 1).toNat = x.toNat + 1 := by
  rw [UInt64.toNat_add, UInt64.toNat_one, Nat.mod_eq_of_lt h]

/-! ## Big-endian words -/

/-- **The big-endian bytes of a 64-bit word.** -/
def putUint64 (x : UInt64) : Bytes :=
  [(x >>> 56).toUInt8, (x >>> 48).toUInt8, (x >>> 40).toUInt8, (x >>> 32).toUInt8,
    (x >>> 24).toUInt8, (x >>> 16).toUInt8, (x >>> 8).toUInt8, x.toUInt8]

@[simp] theorem length_putUint64 (x : UInt64) : (putUint64 x).length = 8 := rfl

/-- **The eight bytes determine the word.** -/
theorem putUint64_injective : Function.Injective putUint64 := by
  intro x y h
  simp only [putUint64, List.cons.injEq, and_true, ← UInt8.toNat_inj,
    UInt64.toNat_toUInt8, UInt64.toNat_shiftRight, Nat.shiftRight_eq_div_pow,
    UInt64.reduceToNat, Nat.reduceMod, Nat.reducePow] at h
  have hx : x.toNat < 2 ^ 64 := x.toNat_lt
  have hy : y.toNat < 2 ^ 64 := y.toNat_lt
  refine UInt64.toNat_inj.mp ?_
  omega

/-! ## Texts as bytes -/

/-- The UTF-8 bytes of a text. -/
def textBytes (s : String) : Bytes :=
  s.toUTF8.data.toList

theorem textBytes_injective : Function.Injective textBytes := by
  intro s t h
  refine String.toByteArray_inj.mp (ByteArray.ext ?_)
  exact Array.toList_inj.mp h

theorem textBytes_append (s t : String) :
    textBytes (s ++ t) = textBytes s ++ textBytes t := by
  unfold textBytes
  simp

theorem length_textBytes (s : String) :
    (textBytes s).length = s.utf8ByteSize := rfl

/-! ## Texts joined by a separator -/

/-- **A part splits off at a separator** if it is known how many separators
are in it. -/
theorem append_cons_inj {α : Type} [DecidableEq α] {sep : α} {a b x y : List α}
    (h : a ++ sep :: x = b ++ sep :: y) (hcount : a.count sep = b.count sep) :
    a = b ∧ x = y := by
  induction a generalizing b with
  | nil =>
    cases b with
    | nil => exact ⟨rfl, (List.cons.inj h).2⟩
    | cons c b =>
      obtain ⟨rfl, -⟩ := List.cons.inj h
      simp at hcount
  | cons c a ih =>
    cases b with
    | nil =>
      obtain ⟨rfl, -⟩ := List.cons.inj h
      simp at hcount
    | cons d b =>
      obtain ⟨rfl, htail⟩ := List.cons.inj h
      rw [List.count_cons, List.count_cons, Nat.add_right_cancel_iff] at hcount
      obtain ⟨rfl, hxy⟩ := ih htail hcount
      exact ⟨rfl, hxy⟩

theorem String.append_sep_inj {a b x y s : String} {sep : Char}
    (hs : s.toList = [sep]) (h : a ++ (s ++ x) = b ++ (s ++ y))
    (hcount : a.toList.count sep = b.toList.count sep) : a = b ∧ x = y := by
  have hlist := congrArg String.toList h
  simp only [String.toList_append, hs, List.singleton_append] at hlist
  obtain ⟨hab, hxy⟩ := append_cons_inj hlist hcount
  exact ⟨String.toList_inj.mp hab, String.toList_inj.mp hxy⟩

/-- Decimal digits are the only characters of a number. -/
theorem count_toString_nat {c : Char} (hc : c.isDigit = false) (n : ℕ) :
    (toString n).toList.count c = 0 := by
  rw [List.count_eq_zero, Nat.toString_eq_repr, Nat.toList_repr]
  intro hmem
  rw [Nat.isDigit_of_mem_toDigits (by decide) (by decide) hmem] at hc
  cases hc

/-- A number with a sign has digits and the sign. -/
theorem count_toString_int {c : Char} (hc : c.isDigit = false)
    (hsign : c ≠ '-') (i : ℤ) :
    (toString i).toList.count c = 0 := by
  rw [Int.toString_eq_repr, Int.repr_eq_if]
  split
  · rw [← Nat.toString_eq_repr]
    exact count_toString_nat hc _
  · rw [String.toList_append, List.count_append, ← Nat.toString_eq_repr,
      count_toString_nat hc, Nat.add_zero, List.count_eq_zero]
    simpa using hsign

theorem toString_nat_injective : Function.Injective (fun n : ℕ => toString n) := by
  intro m n h
  have hdigits : Nat.toDigits 10 m = Nat.toDigits 10 n := by
    rw [← Nat.toList_repr, ← Nat.toList_repr, ← Nat.toString_eq_repr,
      ← Nat.toString_eq_repr]
    exact congrArg String.toList h
  calc m = Nat.ofDigitChars 10 (Nat.toDigits 10 m) 0 :=
    Nat.ofDigitChars_ten_toDigits.symm
    _ = Nat.ofDigitChars 10 (Nat.toDigits 10 n) 0 := by rw [hdigits]
    _ = n := Nat.ofDigitChars_ten_toDigits

/-- A number with a sign is determined by its text: the sign is not a digit. -/
theorem toString_int_injective : Function.Injective (fun i : ℤ => toString i) := by
  have hsign : ∀ m n : ℕ, toString m ≠ "-" ++ toString n := by
    intro m n h
    have hcount := count_toString_nat (c := '-') (by decide) m
    rw [h, String.toList_append, List.count_append] at hcount
    have hone : "-".toList.count '-' = 1 := by decide
    omega
  intro i j h
  dsimp only at h
  rw [Int.toString_eq_repr, Int.toString_eq_repr, Int.repr_eq_if, Int.repr_eq_if] at h
  simp only [← Nat.toString_eq_repr] at h
  split at h
  · split at h
    · have hnat := toString_nat_injective h
      omega
    · exact absurd h (hsign _ _)
  · split at h
    · exact absurd h.symm (hsign _ _)
    · have hnat := toString_nat_injective (String.append_right_inj "-" |>.mp h)
      omega

/-! ## Records of one width -/

section Records

variable {α β : Type} {f : α → List β} {w : ℕ}

theorem length_flatMap_of_width (hw : ∀ a, (f a).length = w) (l : List α) :
    (l.flatMap f).length = w * l.length := by
  induction l with
  | nil => rfl
  | cons a l ih =>
    rw [List.flatMap_cons, List.length_append, hw, ih, List.length_cons]
    ring

/-- **Records of one width can be told apart** in their concatenation, once
their number is known. -/
theorem eq_of_flatMap_eq (hf : Function.Injective f) (hw : ∀ a, (f a).length = w)
    {l₁ l₂ : List α} (hlen : l₁.length = l₂.length)
    (h : l₁.flatMap f = l₂.flatMap f) :
    l₁ = l₂ := by
  induction l₁ generalizing l₂ with
  | nil => rw [List.length_eq_zero_iff.mp hlen.symm]
  | cons a l₁ ih =>
    cases l₂ with
    | nil => cases hlen
    | cons b l₂ =>
      rw [List.flatMap_cons, List.flatMap_cons] at h
      obtain ⟨hhead, htail⟩ := List.append_inj h (by rw [hw, hw])
      rw [hf hhead, ih (Nat.succ.inj hlen) htail]

end Records

/-! ## Hexadecimal texts -/

/-- The lower-case hexadecimal digit of a number below sixteen. -/
def hexDigit (n : ℕ) : Char :=
  if n < 10 then Char.ofNat (48 + n) else Char.ofNat (87 + n)

/-- The value of a hexadecimal digit, in either case. -/
def hexValue (c : Char) : Option ℕ :=
  if '0' ≤ c ∧ c ≤ '9' then some (c.toNat - 48)
  else if 'a' ≤ c ∧ c ≤ 'f' then some (c.toNat - 87)
  else if 'A' ≤ c ∧ c ≤ 'F' then some (c.toNat - 55)
  else none

/-- Hexadecimal text of a byte string. -/
def hexEncode (bs : Bytes) : String :=
  String.ofList (bs.flatMap
    (fun b => [hexDigit (b.toNat / 16), hexDigit (b.toNat % 16)]))

/-- The bytes of a list of hexadecimal digits. -/
def hexDecodeChars : List Char → Option Bytes
  | [] => some []
  | [_] => none
  | c :: d :: cs =>
    match hexValue c, hexValue d, hexDecodeChars cs with
    | some x, some y, some bs => some (UInt8.ofNat (16 * x + y) :: bs)
    | _, _, _ => none

/-- The bytes of a hexadecimal text, if it is one. -/
def hexDecode (s : String) : Option Bytes :=
  hexDecodeChars s.toList

theorem hexValue_hexDigit : ∀ n < 16, hexValue (hexDigit n) = some n := by
  decide

@[simp] theorem hexDecode_hexEncode (bs : Bytes) :
    hexDecode (hexEncode bs) = some bs := by
  unfold hexDecode hexEncode
  rw [String.toList_ofList]
  induction bs with
  | nil => rfl
  | cons b bs ih =>
    have hb : b.toNat < 256 := b.toNat_lt
    have hhi : b.toNat / 16 < 16 := by omega
    have hlo : b.toNat % 16 < 16 := by omega
    rw [List.flatMap_cons, List.cons_append, List.cons_append, List.nil_append,
      hexDecodeChars, hexValue_hexDigit _ hhi, hexValue_hexDigit _ hlo, ih]
    show some (UInt8.ofNat (16 * (b.toNat / 16) + b.toNat % 16) :: bs) = _
    rw [Nat.div_add_mod, UInt8.ofNat_toNat]

/-! ## Base58 texts -/

namespace Base58

/-- The alphabet, in order of digit value. -/
def alphabet : List Char :=
  ['1', '2', '3', '4', '5', '6', '7', '8', '9', 'A', 'B', 'C', 'D', 'E', 'F', 'G',
    'H', 'J', 'K', 'L', 'M', 'N', 'P', 'Q', 'R', 'S', 'T', 'U', 'V', 'W',
    'X', 'Y', 'Z',
    'a', 'b', 'c', 'd', 'e', 'f', 'g', 'h', 'i', 'j', 'k', 'm', 'n', 'o',
    'p', 'q', 'r', 's', 't', 'u', 'v', 'w', 'x', 'y', 'z']

/-- The value of a base58 digit. -/
def digitValue (c : Char) : Option ℕ :=
  alphabet.idxOf? c

/-- The digit values of a list of characters, if all of them are digits. -/
def digitValues : List Char → Option (List ℕ)
  | [] => some []
  | c :: cs =>
    match digitValue c, digitValues cs with
    | some d, some ds => some (d :: ds)
    | _, _ => none

/-- **Base58 decoding.** Leading `1`s stand for leading zero bytes, the rest
is a number in base 58, most significant digit first. The empty text is
refused. -/
def decode (s : String) : Option Bytes :=
  if s = "" then none
  else (digitValues s.toList).map (fun ds =>
    List.replicate (ds.takeWhile (· = 0)).length 0
      ++ ((Nat.digits 256 (Nat.ofDigits 58 ds.reverse)).map UInt8.ofNat).reverse)

/-- A character of seven bits as Go quotes it: what does not print is
escaped, and so are the quote and the backslash. -/
def quoteRune (c : Char) : String :=
  let escaped := match c.toNat with
    | 7 => "\\a"
    | 8 => "\\b"
    | 9 => "\\t"
    | 10 => "\\n"
    | 11 => "\\v"
    | 12 => "\\f"
    | 13 => "\\r"
    | 39 => "\\'"
    | 92 => "\\\\"
    | n => if n < 32 ∨ n = 127 then "\\x" ++ hexEncode [UInt8.ofNat n]
      else String.ofList [c]
  "'" ++ escaped ++ "'"

/-- **What the decoder says of a text it refuses**: the first character that
is no digit, or that the text is empty. -/
def decodeError (s : String) : String :=
  match s.toList.find? (fun c => (digitValue c).isNone) with
  | none => "zero length string"
  | some c =>
    if c.toNat > 127 then "high-bit set on invalid digit"
    else "invalid base58 digit (" ++ quoteRune c ++ ")"

/-- **Base58 encoding.** -/
def encode (bs : Bytes) : String :=
  String.ofList (List.replicate (bs.takeWhile (· = 0)).length '1'
    ++ ((Nat.digits 58 (Nat.ofDigits 256 (bs.map UInt8.toNat).reverse)).map
      (fun d => alphabet.getD d '1')).reverse)

/-- A digit is below the base, and its character takes one byte. -/
theorem digitValue_bounds {c : Char} {d : ℕ} (h : digitValue c = some d) :
    d < 58 ∧ c.utf8Size = 1 := by
  have hmem : c ∈ alphabet := by
    by_contra hc
    rw [digitValue, List.idxOf?_eq_none_iff.mpr hc] at h
    cases h
  -- tests on booleans: they evaluate the same whatever instances are in
  -- scope
  have hsize : alphabet.all (fun c => c.utf8Size == 1) = true := by decide +kernel
  have hlength : alphabet.length = 58 := rfl
  refine ⟨?_, by simpa using List.all_eq_true.mp hsize c hmem⟩
  obtain ⟨hlt, -⟩ := List.findIdx?_eq_some_iff_getElem.mp h
  exact hlength ▸ hlt

/-- What reading the digits tells about a text: one digit a character, every
digit below the base, one byte a character. -/
theorem digitValues_spec {cs : List Char} {ds : List ℕ}
    (h : digitValues cs = some ds) :
    ds.length = cs.length ∧ (∀ d ∈ ds, d < 58) ∧
      (String.ofList cs).utf8ByteSize = cs.length := by
  induction cs generalizing ds with
  | nil =>
    cases h
    exact ⟨rfl, by simp, rfl⟩
  | cons c cs ih =>
    unfold digitValues at h
    split at h
    · next d ds' hd hds =>
      cases h
      obtain ⟨hlen, hlt, hsize⟩ := ih hds
      obtain ⟨hd58, hc1⟩ := digitValue_bounds hd
      refine ⟨by simp [hlen], ?_, ?_⟩
      · intro e he
        rcases List.mem_cons.mp he with rfl | he
        · exact hd58
        · exact hlt e he
      · rw [← List.singleton_append, String.ofList_append, String.utf8ByteSize_append,
          hsize]
        simp [hc1, Nat.add_comm]
    · cases h

/-- Leading zero digits do not change the number. -/
theorem ofDigits_reverse_eq_dropWhile (ds : List ℕ) :
    Nat.ofDigits 58 ds.reverse
      = Nat.ofDigits 58 (ds.dropWhile (· = 0)).reverse := by
  induction ds with
  | nil => rfl
  | cons d ds ih =>
    by_cases hd : d = 0
    · subst hd
      rw [List.reverse_cons, Nat.ofDigits_append, Nat.ofDigits_singleton, ih]
      simp
    · simp [hd]

/-- **A number without leading zeros takes at least half as many bytes as it
has base58 digits, and at most as many.** -/
theorem length_bytes_bounds {ds : List ℕ} (hlt : ∀ d ∈ ds, d < 58)
    (hhead : ∀ d ∈ ds.head?, d ≠ 0) :
    (Nat.digits 256 (Nat.ofDigits 58 ds.reverse)).length ≤ ds.length ∧
      ds.length ≤ 2 * (Nat.digits 256 (Nat.ofDigits 58 ds.reverse)).length := by
  set v : ℕ := Nat.ofDigits 58 ds.reverse with hv
  have hupper : v < 58 ^ ds.length := by
    have h := Nat.ofDigits_lt_base_pow_length (b := 58) (l := ds.reverse) (by decide)
      (fun d hd => hlt d (List.mem_reverse.mp hd))
    rwa [List.length_reverse] at h
  refine ⟨?_, ?_⟩
  · refine (Nat.digits_length_le_iff (by decide) v).mpr (hupper.trans_le ?_)
    exact Nat.pow_le_pow_left (by decide) _
  · cases ds with
    | nil => exact Nat.zero_le _
    | cons d ds =>
      -- the leading digit is not zero, so the number has full length
      have hd : d ≠ 0 := hhead d rfl
      have hlower : 58 ^ ds.length ≤ v := by
        rw [hv, List.reverse_cons, Nat.ofDigits_append, Nat.ofDigits_singleton,
          List.length_reverse]
        exact (Nat.le_mul_of_pos_right _ (Nat.pos_of_ne_zero hd)).trans
          (Nat.le_add_left _ _)
      have hbytes : v < 58 ^ (2 * (Nat.digits 256 v).length) := by
        refine (Nat.lt_base_pow_length_digits (b := 256) (by decide)).trans_le ?_
        rw [pow_mul]
        exact Nat.pow_le_pow_left (by decide) _
      have hexp := (Nat.pow_lt_pow_iff_right (by decide : 1 < 58)).mp
        (hlower.trans_lt hbytes)
      exact hexp

/-- **The length of a base58 text**: at least that of the bytes it stands
for, and at most twice that. -/
theorem length_of_decode {s : String} {bs : Bytes} (h : decode s = some bs) :
    bs.length ≤ (textBytes s).length ∧ (textBytes s).length ≤ 2 * bs.length := by
  unfold decode at h
  split at h
  · cases h
  · obtain ⟨ds, hds, rfl⟩ := Option.map_eq_some_iff.mp h
    obtain ⟨hcount, hlt, hsize⟩ := digitValues_spec hds
    rw [String.ofList_toList] at hsize
    rw [List.length_append, List.length_replicate, List.length_reverse,
      List.length_map, ofDigits_reverse_eq_dropWhile]
    have hsplit : (ds.takeWhile (· = 0)).length + (ds.dropWhile (· = 0)).length
        = ds.length := by
      rw [← List.length_append, List.takeWhile_append_dropWhile]
    have hhead : ∀ d ∈ (ds.dropWhile (· = 0)).head?, d ≠ 0 := by
      intro d hd
      have hnot := List.head?_dropWhile_not (· = 0) ds
      rw [Option.mem_def.mp hd] at hnot
      simpa using hnot
    have hrest := length_bytes_bounds
      (fun d hd => hlt d ((List.dropWhile_sublist _).subset hd)) hhead
    rw [length_textBytes, hsize]
    omega

/-- A base58 text has characters of the alphabet only. -/
theorem mem_alphabet_of_mem_encode {bs : Bytes} {c : Char}
    (h : c ∈ (encode bs).toList) :
    c ∈ alphabet := by
  have hone : '1' ∈ alphabet := List.mem_cons_self
  rw [encode, String.toList_ofList, List.mem_append, List.mem_reverse] at h
  obtain hzero | hdigit := h
  · rw [List.eq_of_mem_replicate hzero]
    exact hone
  · obtain ⟨d, -, rfl⟩ := List.mem_map.mp hdigit
    rw [List.getD_eq_getElem?_getD]
    cases hd : alphabet[d]? with
    | none => exact hone
    | some c => exact List.mem_of_getElem? hd

theorem digitValue_getD : ∀ d < 58, digitValue (alphabet.getD d '1') = some d := by
  decide +kernel

/-- The digits of a text made from digits. -/
theorem digitValues_map {ds : List ℕ} (h : ∀ d ∈ ds, d < 58) :
    digitValues (ds.map fun d => alphabet.getD d '1') = some ds := by
  induction ds with
  | nil => rfl
  | cons d ds ih =>
    rw [List.map_cons, digitValues, digitValue_getD d (h d List.mem_cons_self),
      ih fun e he => h e (List.mem_cons_of_mem d he)]

/-- The number of a byte string has its bytes for digits, but for leading
zeros. -/
theorem digits_ofDigits_bytes (bs : Bytes) :
    Nat.digits 256 (Nat.ofDigits 256 (bs.map UInt8.toNat).reverse)
      = ((bs.dropWhile (· = 0)).map UInt8.toNat).reverse := by
  induction bs with
  | nil => simp
  | cons b bs ih =>
    by_cases hb : b = 0
    · subst hb
      rw [List.dropWhile_cons_of_pos (by simp), ← ih, List.map_cons,
        List.reverse_cons, Nat.ofDigits_append]
      simp
    · rw [List.dropWhile_cons_of_neg (by simpa using hb)]
      refine Nat.digits_ofDigits 256 (by decide) _ ?_ ?_
      · intro d hd
        obtain ⟨b', -, rfl⟩ := List.mem_map.mp (List.mem_reverse.mp hd)
        exact b'.toNat_lt
      · intro _
        simpa [← UInt8.toNat_inj] using hb

/-- Leading digits: the zeros in front of a number. -/
theorem takeWhile_zeros (k v : ℕ) :
    (List.replicate k 0 ++ (Nat.digits 58 v).reverse).takeWhile (· = 0)
      = List.replicate k 0 := by
  have hhead : (Nat.digits 58 v).reverse.takeWhile (· = 0) = [] := by
    rw [List.takeWhile_eq_nil_iff]
    intro hpos
    have hne : Nat.digits 58 v ≠ [] := by simpa using List.ne_nil_of_length_pos hpos
    have hlast := Nat.getLast_digit_ne_zero 58 (Nat.digits_ne_nil_iff_ne_zero.mp hne)
    simpa [List.getLast_eq_getElem] using hlast
  rw [List.takeWhile_append_of_pos (by simp), hhead, List.append_nil]

theorem decode_encode {bs : Bytes} (h : bs ≠ []) : decode (encode bs) = some bs := by
  set v := Nat.ofDigits 256 (bs.map UInt8.toNat).reverse with hv
  set k := (bs.takeWhile (· = 0)).length with hk
  have hbytes : Nat.digits 256 v = ((bs.dropWhile (· = 0)).map UInt8.toNat).reverse :=
    digits_ofDigits_bytes bs
  have hbs : List.replicate k 0 ++ bs.dropWhile (· = 0) = bs := by
    have hzeros : bs.takeWhile (· = 0) = List.replicate k 0 :=
      List.eq_replicate_iff.mpr
        ⟨rfl, fun b hb => by simpa using List.mem_takeWhile_imp hb⟩
    rw [← hzeros]
    exact List.takeWhile_append_dropWhile
  have hencode : encode bs
      = String.ofList ((List.replicate k 0 ++ (Nat.digits 58 v).reverse).map
          fun d => alphabet.getD d '1') := by
    unfold encode
    rw [List.map_append, List.map_replicate, List.map_reverse]
    rfl
  have hvalues : digitValues (encode bs).toList
      = some (List.replicate k 0 ++ (Nat.digits 58 v).reverse) := by
    rw [hencode, String.toList_ofList]
    refine digitValues_map fun d hd => ?_
    obtain hd | hd := List.mem_append.mp hd
    · rw [List.eq_of_mem_replicate hd]
      decide
    · exact Nat.digits_lt_base (by decide) (List.mem_reverse.mp hd)
  have hne : encode bs ≠ "" := by
    intro hempty
    rw [hempty] at hvalues
    obtain ⟨hk0, hdigits⟩ := List.append_eq_nil_iff.mp (Option.some.inj hvalues).symm
    have hv0 : v = 0 := Nat.digits_eq_nil_iff_eq_zero.mp
      (List.reverse_eq_nil_iff.mp hdigits)
    rw [hv0, Nat.digits_zero] at hbytes
    have hk0' : k = 0 := by simpa using hk0
    rw [hk0', List.map_eq_nil_iff.mp (List.reverse_eq_nil_iff.mp hbytes.symm)] at hbs
    exact h hbs.symm
  unfold decode
  rw [if_neg hne, hvalues, Option.map_some, takeWhile_zeros, List.length_replicate,
    List.reverse_append, List.reverse_reverse, List.reverse_replicate,
    Nat.ofDigits_append_replicate_zero, Nat.ofDigits_digits, hbytes, List.map_reverse,
    List.reverse_reverse, List.map_map]
  simpa [Function.comp_def] using hbs

end Base58

/-! ## Base64 text -/

namespace Base64

/-- The alphabet, in order of digit value. -/
def alphabet : List Char :=
  ['A', 'B', 'C', 'D', 'E', 'F', 'G', 'H', 'I', 'J', 'K', 'L', 'M', 'N',
    'O', 'P', 'Q',
    'R', 'S', 'T', 'U', 'V', 'W', 'X', 'Y', 'Z', 'a', 'b', 'c', 'd', 'e',
    'f', 'g', 'h',
    'i', 'j', 'k', 'l', 'm', 'n', 'o', 'p', 'q', 'r', 's', 't', 'u', 'v',
    'w', 'x', 'y', 'z', '0', '1', '2', '3', '4', '5', '6', '7', '8', '9', '+', '/']

/-- The value of a base64 digit. -/
def digitValue (c : Char) : Option ℕ := alphabet.idxOf? c

/-- The bytes of a full group of four digits. -/
def group (x y z w : ℕ) : Bytes :=
  let v := ((x * 64 + y) * 64 + z) * 64 + w
  [UInt8.ofNat (v / 65536), UInt8.ofNat (v / 256), UInt8.ofNat v]

/-- The groups of a text without line ends. The last one may be padded; the
bits that padding leaves over are ignored. -/
def decodeGroups : List Char → Option Bytes
  | [] => some []
  | a :: b :: c :: d :: rest =>
    match digitValue a, digitValue b with
    | some x, some y =>
      match digitValue c, digitValue d with
      | some z, some w => (decodeGroups rest).map (group x y z w ++ ·)
      | some z, none =>
        if d = '=' ∧ rest = [] then some ((group x y z 0).take 2) else none
      | none, _ =>
        if c = '=' ∧ d = '=' ∧ rest = [] then some ((group x y 0 0).take 1) else none
    | _, _ => none
  | _ => none

/-- **Base64 decoding**, with padding. Line ends are skipped wherever they
are. -/
def decode (s : String) : Option Bytes :=
  decodeGroups (s.toList.filter (fun c => c ≠ '\r' ∧ c ≠ '\n'))

/-- The digit with a value. -/
def digit (d : ℕ) : Char := alphabet.getD d 'A'

/-- The groups of a byte string, of which the last one may be padded. -/
def encodeGroups : Bytes → List Char
  | [] => []
  | [a] => [digit (a.toNat / 4), digit (a.toNat % 4 * 16), '=', '=']
  | [a, b] =>
    [digit (a.toNat / 4), digit (a.toNat % 4 * 16 + b.toNat / 16),
      digit (b.toNat % 16 * 4), '=']
  | a :: b :: c :: rest =>
    [digit (a.toNat / 4), digit (a.toNat % 4 * 16 + b.toNat / 16),
      digit (b.toNat % 16 * 4 + c.toNat / 64), digit (c.toNat % 64)]
        ++ encodeGroups rest

/-- **Base64 encoding**, with padding. -/
def encode (bs : Bytes) : String := String.ofList (encodeGroups bs)

theorem mem_alphabet_of_digitValue {c : Char} {d : ℕ} (h : digitValue c = some d) :
    c ∈ alphabet := by
  by_contra hc
  rw [digitValue, List.idxOf?_eq_none_iff.mpr hc] at h
  cases h

/-- **A text that decodes** has digits and padding only. -/
theorem mem_of_decodeGroups {cs : List Char} {bs : Bytes}
    (h : decodeGroups cs = some bs) {c : Char} (hmem : c ∈ cs) :
    c ∈ alphabet ∨ c = '=' := by
  fun_induction decodeGroups cs generalizing bs with
  | case1 => cases hmem
  | case2 a b c' d rest x y hb ha z w hd hc' ih =>
    obtain ⟨bs', hrest, -⟩ := Option.map_eq_some_iff.mp h
    simp only [List.mem_cons] at hmem
    obtain rfl | rfl | rfl | rfl | hmem := hmem
    · exact Or.inl (mem_alphabet_of_digitValue ha)
    · exact Or.inl (mem_alphabet_of_digitValue hb)
    · exact Or.inl (mem_alphabet_of_digitValue hc')
    · exact Or.inl (mem_alphabet_of_digitValue hd)
    · exact ih hrest hmem
  | case3 a b c' d rest x y hb ha z hd hc' hpad =>
    simp only [hpad.1, hpad.2, List.mem_cons, List.not_mem_nil, or_false] at hmem
    obtain rfl | rfl | rfl | rfl := hmem
    · exact Or.inl (mem_alphabet_of_digitValue ha)
    · exact Or.inl (mem_alphabet_of_digitValue hb)
    · exact Or.inl (mem_alphabet_of_digitValue hc')
    · exact Or.inr rfl
  | case5 a b c' d rest x y hb ha hc' hpad =>
    simp only [hpad.1, hpad.2.1, hpad.2.2, List.mem_cons, List.not_mem_nil, or_false,
      or_self] at hmem
    obtain rfl | rfl | rfl := hmem
    · exact Or.inl (mem_alphabet_of_digitValue ha)
    · exact Or.inl (mem_alphabet_of_digitValue hb)
    · exact Or.inr rfl
  | case4 => cases h
  | case6 => cases h
  | case7 => cases h
  | case8 => cases h

/-- A text that decodes has no other character but line ends. -/
theorem mem_of_decode {s : String} {bs : Bytes} (h : decode s = some bs) {c : Char}
    (hmem : c ∈ s.toList) : c ∈ alphabet ∨ c = '=' ∨ c = '\r' ∨ c = '\n' := by
  by_cases hline : c = '\r' ∨ c = '\n'
  · exact Or.inr (Or.inr hline)
  · have hfilter : c ∈ s.toList.filter (fun c => c ≠ '\r' ∧ c ≠ '\n') := by
      refine List.mem_filter.mpr ⟨hmem, ?_⟩
      simpa [not_or] using hline
    obtain halpha | hpad := mem_of_decodeGroups h hfilter
    · exact Or.inl halpha
    · exact Or.inr (Or.inl hpad)

end Base64

/-! ## JSON texts -/

namespace Json

/-- A character inside a JSON text. The characters that mean something in
HTML are escaped as well. -/
def escape (c : Char) : String :=
  if c = '"' ∨ c = '\\' then String.ofList ['\\', c]
  else if c = '\n' then "\\n"
  else if c = '\r' then "\\r"
  else if c = '\t' then "\\t"
  else if c.toNat < 0x20 ∨ c = '<' ∨ c = '>' ∨ c = '&' then
    String.ofList ['\\', 'u', '0', '0', hexDigit (c.toNat / 16),
      hexDigit (c.toNat % 16)]
  else if c.toNat = 0x2028 ∨ c.toNat = 0x2029 then
    String.ofList ['\\', 'u', '2', '0', '2', hexDigit (c.toNat % 16)]
  else String.singleton c

/-- The characters of a JSON text. -/
def escapeAll : List Char → String
  | [] => ""
  | c :: cs => escape c ++ escapeAll cs

/-- A text as JSON. -/
def string (s : String) : String := "\"" ++ escapeAll s.toList ++ "\""

/-- The members of an object, each a name and the JSON of its value. -/
def members : List (String × String) → String
  | [] => ""
  | [m] => string m.1 ++ ":" ++ m.2
  | m :: m' :: ms => string m.1 ++ ":" ++ m.2 ++ "," ++ members (m' :: ms)

/-- An object as JSON. -/
def object (ms : List (String × String)) : String := "\x7b" ++ members ms ++ "\x7d"

/-- A text member that is left out when it is empty. -/
def omitEmpty (name value : String) : List (String × String) :=
  if value = "" then [] else [(name, string value)]

/-- A text has at least a byte for every character. -/
theorem length_le_utf8ByteSize (cs : List Char) :
    cs.length ≤ (String.ofList cs).utf8ByteSize := by
  induction cs with
  | nil => exact Nat.zero_le _
  | cons c cs ih =>
    have hc := Char.utf8Size_pos c
    rw [← List.singleton_append, String.ofList_append, String.utf8ByteSize_append,
      List.length_append]
    have hone : (String.ofList [c]).utf8ByteSize = c.utf8Size := by simp
    rw [List.length_singleton]
    omega

theorem utf8Size_le_escape (c : Char) : c.utf8Size ≤ (escape c).utf8ByteSize := by
  have hfour := Char.utf8Size_le_four c
  unfold escape
  split
  · simp
  split
  · next h => subst h; decide
  split
  · next h => subst h; decide
  split
  · next h => subst h; decide
  split
  · refine le_trans ?_ (length_le_utf8ByteSize _)
    exact hfour.trans (by simp)
  split
  · refine le_trans ?_ (length_le_utf8ByteSize _)
    exact hfour.trans (by simp)
  · simp

/-- **A JSON text is longer than the text by its quotes**, at least. -/
theorem utf8ByteSize_string (s : String) :
    s.utf8ByteSize + 2 ≤ (string s).utf8ByteSize := by
  have hloop : ∀ cs : List Char,
      (String.ofList cs).utf8ByteSize ≤ (escapeAll cs).utf8ByteSize := by
    intro cs
    induction cs with
    | nil => exact Nat.le_refl _
    | cons c cs ih =>
      have hc := utf8Size_le_escape c
      rw [← List.singleton_append, String.ofList_append, String.utf8ByteSize_append]
      show _ ≤ (escape c ++ escapeAll cs).utf8ByteSize
      rw [String.utf8ByteSize_append]
      have hone : (String.ofList [c]).utf8ByteSize = c.utf8Size := by simp
      omega
  have hs := hloop s.toList
  rw [String.ofList_toList] at hs
  unfold string
  rw [String.utf8ByteSize_append, String.utf8ByteSize_append]
  have hquote : ("\"" : String).utf8ByteSize = 1 := by decide
  omega

/-- **An object writes out its members**: for each the name in quotes, a
colon and the value. -/
theorem utf8ByteSize_object (ms : List (String × String)) :
    (ms.map (fun m => m.1.utf8ByteSize + m.2.utf8ByteSize + 3)).sum
      ≤ (object ms).utf8ByteSize := by
  have hmember : ∀ m : String × String, m.1.utf8ByteSize + m.2.utf8ByteSize + 3
      ≤ (string m.1 ++ ":" ++ m.2).utf8ByteSize := by
    intro m
    have hname := utf8ByteSize_string m.1
    have hcolon : (":" : String).utf8ByteSize = 1 := by decide
    rw [String.utf8ByteSize_append, String.utf8ByteSize_append, hcolon]
    omega
  have hloop : ∀ ms : List (String × String),
      (ms.map (fun m => m.1.utf8ByteSize + m.2.utf8ByteSize + 3)).sum
        ≤ (members ms).utf8ByteSize := by
    intro ms
    induction ms with
    | nil => exact Nat.zero_le _
    | cons m ms ih =>
      have hm := hmember m
      cases ms with
      | nil => simpa [members] using hm
      | cons m' ms =>
        rw [List.map_cons, List.sum_cons, members, String.utf8ByteSize_append,
          String.utf8ByteSize_append]
        omega
  unfold object
  rw [String.utf8ByteSize_append, String.utf8ByteSize_append]
  have hms := hloop ms
  omega

end Json
