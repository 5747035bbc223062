import Mmn.Encoding
import Mathlib.Data.List.TakeWhile

/-!
# Reading and writing JSON

A text that somebody else has written is JSON or it is not, and the value it
stands for may be of another kind than the one expected. This is a reader
for the values that a map of texts is decoded from: null, texts and objects
are told apart, and numbers, truth values and arrays are read over. The
reader is a function of the text because every value takes a character, so
that the number of its calls is bounded by the length (`Read.value_of_le`).

What a reader of maps has to know is which texts stand for null, because
null is accepted in place of a map. They are those that have nothing but
white space around the word (`parse_eq_null_iff`). Objects of texts are also
written, the way the standard library writes them: no space between the
parts, and a character that could end the text after a backslash.
-/

namespace Json

/-- A JSON value, as far as a reader of maps of texts tells them apart. -/
inductive Value where
  | null
  | text (s : String)
  /-- An object, with its members in order. -/
  | object (members : List (String × Value))
  /-- A number, a truth value or an array. -/
  | other

namespace Read

/-! ## White space and words -/

/-- White space between the parts of a value. -/
def isSpace (c : Char) : Bool := c == ' ' || c == '\t' || c == '\n' || c == '\r'

/-- What comes after white space. -/
def skipSpace (cs : List Char) : List Char := cs.dropWhile isSpace

/-- What comes after a word, if the text begins with it. -/
def word : List Char → List Char → Option (List Char)
  | [], cs => some cs
  | _ :: _, [] => none
  | w :: ws, c :: cs => if c = w then word ws cs else none

/-! ## Texts -/

/-- A part of a text between its quotes. -/
inductive Piece where
  /-- A character, as it stands or after a backslash. -/
  | char (c : Char)
  /-- A unit of UTF-16, written as a number. -/
  | code (n : ℕ)

/-- The character that is written after a backslash. -/
def unescape (c : Char) : Option Char :=
  if c = '"' ∨ c = '\\' ∨ c = '/' then some c
  else if c = 'b' then some '\x08'
  else if c = 'f' then some '\x0c'
  else if c = 'n' then some '\n'
  else if c = 'r' then some '\r'
  else if c = 't' then some '\t'
  else none

/-- A number of four hexadecimal digits. -/
def codeUnit (a b c d : Char) : Option ℕ :=
  match hexValue a, hexValue b, hexValue c, hexValue d with
  | some w, some x, some y, some z => some (4096 * w + 256 * x + 16 * y + z)
  | _, _, _, _ => none

/-- The parts of a text, and what comes after its closing quote. -/
def pieces : List Char → Option (List Piece × List Char)
  | [] => none
  | c :: cs =>
    if c = '"' then some ([], cs)
    else if c = '\\' then
      match cs with
      | [] => none
      | e :: cs =>
        if e = 'u' then
          match cs with
          | w :: x :: y :: z :: cs =>
            match codeUnit w x y z, pieces cs with
            | some n, some (ps, rest) => some (.code n :: ps, rest)
            | _, _ => none
          | _ => none
        else
          match unescape e, pieces cs with
          | some c, some (ps, rest) => some (.char c :: ps, rest)
          | _, _ => none
    else if c.toNat < 0x20 then none
    else
      match pieces cs with
      | some (ps, rest) => some (.char c :: ps, rest)
      | none => none

/-- The character of a unit that is not half of a pair. -/
def codeChar (n : ℕ) : Char := if n.isValidChar then Char.ofNat n else '�'

/-- The characters of a text, after a unit that is pending or not. Two units
that are a surrogate pair are one character. -/
def join : Option ℕ → List Piece → List Char
  | none, [] => []
  | some n, [] => [codeChar n]
  | none, .char c :: ps => c :: join none ps
  | some n, .char c :: ps => codeChar n :: c :: join none ps
  | none, .code m :: ps => join (some m) ps
  | some n, .code m :: ps =>
    if 0xD800 ≤ n ∧ n < 0xDC00 ∧ 0xDC00 ≤ m ∧ m < 0xE000 then
      Char.ofNat (0x10000 + (n - 0xD800) * 0x400 + (m - 0xDC00)) :: join none ps
    else codeChar n :: join (some m) ps

/-- **A text**, after its opening quote. -/
def text (cs : List Char) : Option (String × List Char) :=
  match pieces cs with
  | some (ps, rest) => some (String.ofList (join none ps), rest)
  | none => none

/-! ## Numbers -/

/-- What comes after digits, of which there must be one. -/
def digits : List Char → Option (List Char)
  | [] => none
  | c :: cs => if c.isDigit then some (cs.dropWhile Char.isDigit) else none

/-- What comes after a character that may be left out. -/
def optionally (p : Char → Bool) : List Char → List Char
  | [] => []
  | c :: cs => if p c then cs else c :: cs

/-- What comes after the integer part of a number, which has no leading
zeros. -/
def integer : List Char → Option (List Char)
  | '0' :: cs => some cs
  | cs => digits cs

/-- What comes after the fraction of a number, if it has one. -/
def fraction : List Char → Option (List Char)
  | '.' :: cs => digits cs
  | cs => some cs

/-- What comes after the exponent of a number, if it has one. -/
def exponent : List Char → Option (List Char)
  | [] => some []
  | c :: cs =>
    if c = 'e' ∨ c = 'E' then digits (optionally (fun c => c == '+' || c == '-') cs)
    else some (c :: cs)

/-- What comes after a number. -/
def number (cs : List Char) : Option (List Char) :=
  ((integer (optionally (· == '-') cs)).bind fraction).bind exponent

/-! ## Values -/

mutual

/-- **A value**, and what comes after it. -/
def value : ℕ → List Char → Option (Value × List Char)
  | 0, _ => none
  | fuel + 1, cs =>
    match skipSpace cs with
    | [] => none
    | c :: cs =>
      if c = 'n' then (word ['u', 'l', 'l'] cs).map fun rest => (.null, rest)
      else if c = 't' then (word ['r', 'u', 'e'] cs).map fun rest => (.other, rest)
      else if c = 'f' then (word ['a', 'l', 's', 'e'] cs).map fun rest =>
        (.other, rest)
      else if c = '"' then (text cs).map fun r => (.text r.1, r.2)
      else if c = '[' then
        match skipSpace cs with
        | ']' :: rest => some (.other, rest)
        | _ => (elements fuel cs).map fun rest => (.other, rest)
      else if c = '\x7b' then
        match skipSpace cs with
        | '\x7d' :: rest => some (.object [], rest)
        | _ => (members fuel cs).map fun r => (.object r.1, r.2)
      else (number (c :: cs)).map fun rest => (.other, rest)

/-- The elements of an array that has some, and its end. -/
def elements : ℕ → List Char → Option (List Char)
  | 0, _ => none
  | fuel + 1, cs =>
    match value fuel cs with
    | none => none
    | some (_, cs) =>
      match skipSpace cs with
      | ']' :: rest => some rest
      | ',' :: cs => elements fuel cs
      | _ => none

/-- A member of an object. -/
def member : ℕ → List Char → Option ((String × Value) × List Char)
  | 0, _ => none
  | fuel + 1, cs =>
    match skipSpace cs with
    | '"' :: cs =>
      match text cs with
      | none => none
      | some (name, cs) =>
        match skipSpace cs with
        | ':' :: cs => (value fuel cs).map fun r => ((name, r.1), r.2)
        | _ => none
    | _ => none

/-- The members of an object that has some, and its end. -/
def members : ℕ → List Char → Option (List (String × Value) × List Char)
  | 0, _ => none
  | fuel + 1, cs =>
    match member fuel cs with
    | none => none
    | some (m, cs) =>
      match skipSpace cs with
      | '\x7d' :: rest => some ([m], rest)
      | ',' :: cs => (members fuel cs).map fun r => (m :: r.1, r.2)
      | _ => none

end

end Read

/-- **The value a text stands for**, if it is JSON. Each character is read
once, and twice as many calls as there are characters are enough. -/
def parse (s : String) : Option Value :=
  match Read.value (2 * s.toList.length) s.toList with
  | none => none
  | some (v, rest) => if Read.skipSpace rest = [] then some v else none

/-- **The text is null**, with white space around it. -/
def IsNull (s : String) : Prop :=
  ∃ before after : List Char, (∀ c ∈ before, Read.isSpace c) ∧
    (∀ c ∈ after, Read.isSpace c) ∧ s.toList = before ++ ['n', 'u', 'l', 'l'] ++ after

namespace Read

theorem word_eq_some_iff {w cs rest : List Char} :
    word w cs = some rest ↔ cs = w ++ rest := by
  induction w generalizing cs with
  | nil => simp [word, eq_comm]
  | cons a w ih =>
    cases cs with
    | nil => simp [word]
    | cons c cs =>
      unfold word
      by_cases hc : c = a
      · rw [if_pos hc, ih, hc]
        simp
      · simp [hc]

theorem skipSpace_eq_nil_iff {cs : List Char} :
    skipSpace cs = [] ↔ ∀ c ∈ cs, isSpace c := by
  unfold skipSpace
  exact List.dropWhile_eq_nil_iff

/-- A value is null exactly if it is written so. -/
theorem value_eq_null_iff {fuel : ℕ} {cs rest : List Char} :
    value (fuel + 1) cs = some (.null, rest) ↔ skipSpace cs = ['n', 'u', 'l', 'l']
      ++ rest := by
  rw [value]
  cases skipSpace cs with
  | nil => simp
  | cons c cs' =>
    dsimp only
    by_cases hn : c = 'n'
    · rw [if_pos hn, hn, Option.map_eq_some_iff]
      simp [word_eq_some_iff]
    · rw [if_neg hn]
      refine iff_of_false (fun h => ?_) (fun h => hn (List.cons.inj h).1)
      -- no other beginning gives null
      repeat' split at h
      all_goals simp at h

/-! ## Enough fuel -/

/-- **A reader takes a character** of whatever it reads. -/
def Takes {α : Type} (rest : α → List Char) (read : List Char → Option α) : Prop :=
  ∀ cs a, read cs = some a → (rest a).length < cs.length

theorem Takes.of_map {α β : Type} {rest : α → List Char} {read : List Char → Option α}
    (h : Takes rest read) {f : α → β} {cs : List Char} {b : β}
    (hb : (read cs).map f = some b) {rest' : β → List Char}
    (hf : ∀ a, rest' (f a) = rest a) : (rest' b).length < cs.length := by
  obtain ⟨a, ha, rfl⟩ := Option.map_eq_some_iff.mp hb
  rw [hf]
  exact h cs a ha

theorem length_skipSpace_le (cs : List Char) : (skipSpace cs).length ≤ cs.length :=
  (List.dropWhile_sublist _).length_le

theorem length_of_skipSpace {cs rest : List Char} {c : Char}
    (h : skipSpace cs = c :: rest) :
    rest.length < cs.length := by
  have hle := length_skipSpace_le cs
  rw [h, List.length_cons] at hle
  exact hle

theorem length_of_word {w cs rest : List Char} (h : word w cs = some rest) :
    rest.length ≤ cs.length := by
  rw [word_eq_some_iff.mp h, List.length_append]
  exact Nat.le_add_left _ _

theorem takes_pieces : Takes Prod.snd pieces := by
  intro cs r h
  fun_induction pieces cs generalizing r with
  | case2 =>
    cases h
    exact Nat.lt_succ_self _
  | case4 w x y z cs n ps rest hps _ _ ih =>
    cases h
    have hlt : rest.length < cs.length := ih _ hps
    simp only [List.length_cons]
    omega
  | case7 e cs _ c ps rest hps _ _ ih =>
    cases h
    have hlt : rest.length < cs.length := ih _ hps
    simp only [List.length_cons]
    omega
  | case10 e cs _ _ _ ps rest hps ih =>
    cases h
    exact (ih _ hps).trans (Nat.lt_succ_self _)
  -- in the other cases nothing is read
  | _ => cases h

theorem takes_text : Takes Prod.snd text := by
  intro cs r h
  unfold text at h
  split at h
  · next ps rest hps =>
    cases h
    exact takes_pieces _ _ hps
  · cases h

theorem takes_digits : Takes id digits := by
  intro cs rest h
  cases cs with
  | nil => cases h
  | cons c cs =>
    rw [digits] at h
    split at h
    · cases h
      exact Nat.lt_succ_of_le (List.dropWhile_sublist _).length_le
    · cases h

theorem length_optionally_le (p : Char → Bool) (cs : List Char) :
    (optionally p cs).length ≤ cs.length := by
  cases cs with
  | nil => exact le_rfl
  | cons c cs =>
    rw [optionally]
    split <;> simp

theorem takes_integer : Takes id integer := by
  intro cs rest h
  unfold integer at h
  split at h
  · cases h
    exact Nat.lt_succ_self _
  · exact takes_digits _ _ h

theorem length_of_fraction {cs rest : List Char} (h : fraction cs = some rest) :
    rest.length ≤ cs.length := by
  unfold fraction at h
  split at h
  · exact (takes_digits _ _ h).le.trans (Nat.le_succ _)
  · cases h
    exact le_rfl

theorem length_of_exponent {cs rest : List Char} (h : exponent cs = some rest) :
    rest.length ≤ cs.length := by
  unfold exponent at h
  split at h
  · cases h
    exact le_rfl
  · split at h
    · exact ((takes_digits _ _ h).le.trans (length_optionally_le _ _)).trans
        (Nat.le_succ _)
    · cases h
      exact le_rfl

theorem takes_number : Takes id number := by
  intro cs rest h
  obtain ⟨cs₂, h₂, hexponent⟩ := Option.bind_eq_some_iff.mp h
  obtain ⟨cs₁, hinteger, hfraction⟩ := Option.bind_eq_some_iff.mp h₂
  calc rest.length ≤ cs₂.length := length_of_exponent hexponent
    _ ≤ cs₁.length := length_of_fraction hfraction
    _ < (optionally (· == '-') cs).length := takes_integer _ _ hinteger
    _ ≤ cs.length := length_optionally_le _ _

section

variable {fuel : ℕ}

theorem takes_value_succ (helements : Takes id (elements fuel))
    (hmembers : Takes Prod.snd (members fuel)) :
    Takes Prod.snd (value (fuel + 1)) := by
  intro cs r h
  rw [value] at h
  split at h
  · cases h
  next c cs' hskip =>
  have hlt := length_of_skipSpace hskip
  have hword : ∀ {w : List Char} {v : Value},
    (word w cs').map (fun rest => (v, rest)) = some r →
      r.2.length < cs.length := by
    intro w v hr
    obtain ⟨rest, hrest, rfl⟩ := Option.map_eq_some_iff.mp hr
    exact (length_of_word hrest).trans_lt hlt
  have hend : ∀ {rest : List Char} {d : Char} {v : Value}, skipSpace cs' = d :: rest →
      some (v, rest) = some r → r.2.length < cs.length := by
    intro rest d v hrest hr
    cases hr
    exact (length_of_skipSpace hrest).trans hlt
  split at h
  · exact hword h
  split at h
  · exact hword h
  split at h
  · exact hword h
  split at h
  · exact (takes_text.of_map h fun _ => rfl).trans hlt
  split at h
  · split at h
    · next hrest => exact hend hrest h
    · exact (helements.of_map h fun _ => rfl).trans hlt
  split at h
  · split at h
    · next hrest => exact hend hrest h
    · exact (hmembers.of_map h fun _ => rfl).trans hlt
  · have hle : r.2.length < (c :: cs').length := takes_number.of_map h fun _ => rfl
    rw [List.length_cons] at hle
    exact (Nat.le_of_lt_succ hle).trans_lt hlt

theorem takes_elements_succ (hvalue : Takes Prod.snd (value fuel))
    (helements : Takes id (elements fuel)) : Takes id (elements (fuel + 1)) := by
  intro cs rest h
  rw [elements] at h
  split at h
  · cases h
  next v cs' hread =>
  have hlt := hvalue _ _ hread
  split at h
  · next hend =>
    cases h
    exact (length_of_skipSpace hend).trans hlt
  · next hcomma =>
      exact (helements _ _ h).trans ((length_of_skipSpace hcomma).trans hlt)
  · cases h

theorem takes_member_succ (hvalue : Takes Prod.snd (value fuel)) :
    Takes Prod.snd (member (fuel + 1)) := by
  intro cs r h
  rw [member] at h
  split at h
  · next cs₁ hquote =>
    split at h
    · cases h
    next name cs₂ htext =>
    split at h
    · next cs₃ hcolon =>
      calc r.2.length < cs₃.length := hvalue.of_map h fun _ => rfl
        _ < cs₂.length := length_of_skipSpace hcolon
        _ < cs₁.length := takes_text _ _ htext
        _ < cs.length := length_of_skipSpace hquote
    · cases h
  · cases h

theorem takes_members_succ (hmember : Takes Prod.snd (member fuel))
    (hmembers : Takes Prod.snd (members fuel)) :
    Takes Prod.snd (members (fuel + 1)) := by
  intro cs r h
  rw [members] at h
  split at h
  · cases h
  next m cs' hread =>
  have hlt := hmember _ _ hread
  split at h
  · next hend =>
    cases h
    exact (length_of_skipSpace hend).trans hlt
  · next hcomma =>
    exact (hmembers.of_map h fun _ => rfl).trans
      ((length_of_skipSpace hcomma).trans hlt)
  · cases h

end

/-- **Every reader takes a character**, whatever its fuel. -/
theorem takes_all (fuel : ℕ) :
    Takes Prod.snd (value fuel) ∧ Takes id (elements fuel) ∧
      Takes Prod.snd (member fuel) ∧ Takes Prod.snd (members fuel) := by
  induction fuel with
  | zero => exact ⟨nofun, nofun, nofun, nofun⟩
  | succ fuel ih =>
    obtain ⟨hvalue, helements, hmember, hmembers⟩ := ih
    exact ⟨takes_value_succ helements hmembers, takes_elements_succ hvalue helements,
      takes_member_succ hvalue, takes_members_succ hmember hmembers⟩

/-- **More fuel makes no difference** to a reader where it has two calls for
each character and a few more. -/
def Settled {α : Type} (read : ℕ → List Char → Option α) (more fuel : ℕ) : Prop :=
  ∀ cs, 2 * cs.length + more ≤ fuel → read (fuel + 1) cs = read fuel cs

section

variable {fuel : ℕ}

theorem settled_value_succ (helements : Settled elements 1 fuel)
    (hmembers : Settled members 1 fuel) :
    Settled value 0 (fuel + 1) := by
  intro cs h
  rw [value, value]
  cases hskip : skipSpace cs with
  | nil => rfl
  | cons c cs' =>
    have hlt := length_of_skipSpace hskip
    dsimp only
    rw [helements cs' (by omega), hmembers cs' (by omega)]

theorem settled_elements_succ (hvalue : Settled value 0 fuel)
    (helements : Settled elements 1 fuel) :
    Settled elements 1 (fuel + 1) := by
  intro cs h
  rw [elements, elements, hvalue cs (by omega)]
  cases hread : value fuel cs with
  | none => rfl
  | some r =>
    have hlt := (takes_all fuel).1 _ _ hread
    dsimp only
    split
    · rfl
    · next hcomma =>
      have hlt' := length_of_skipSpace hcomma
      exact helements _ (by omega)
    · rfl

theorem settled_member_succ (hvalue : Settled value 0 fuel) :
    Settled member 0 (fuel + 1) := by
  intro cs h
  rw [member, member]
  split
  · next cs₁ hquote =>
    have hlt₁ := length_of_skipSpace hquote
    split
    · rfl
    next name cs₂ htext =>
    have hlt₂ : cs₂.length < cs₁.length := takes_text _ _ htext
    split
    · next cs₃ hcolon =>
      have hlt₃ := length_of_skipSpace hcolon
      rw [hvalue cs₃ (by omega)]
    · rfl
  · rfl

theorem settled_members_succ (hmember : Settled member 0 fuel)
    (hmembers : Settled members 1 fuel) :
    Settled members 1 (fuel + 1) := by
  intro cs h
  rw [members, members, hmember cs (by omega)]
  cases hread : member fuel cs with
  | none => rfl
  | some r =>
    have hlt := (takes_all fuel).2.2.1 _ _ hread
    dsimp only
    split
    · rfl
    · next hcomma =>
      have hlt' := length_of_skipSpace hcomma
      rw [hmembers _ (by omega)]
    · rfl

end

theorem settled_all (fuel : ℕ) :
    Settled value 0 fuel ∧ Settled elements 1 fuel ∧ Settled member 0 fuel ∧
      Settled members 1 fuel := by
  induction fuel with
  | zero =>
    have hnil : ∀ cs : List Char, 2 * cs.length + 0 ≤ 0 → cs = [] := fun cs h =>
      List.length_eq_zero_iff.mp (by omega)
    refine ⟨fun cs h => ?_, fun cs h => by omega, fun cs h => ?_, fun cs h => by
      omega⟩
    · rw [hnil cs h]
      rfl
    · rw [hnil cs h]
      rfl
  | succ fuel ih =>
    obtain ⟨hvalue, helements, hmember, hmembers⟩ := ih
    exact ⟨settled_value_succ helements hmembers,
      settled_elements_succ hvalue helements,
      settled_member_succ hvalue, settled_members_succ hmember hmembers⟩

/-- **Two calls for each character are enough.** -/
theorem value_of_le {cs : List Char} {fuel : ℕ} (h : 2 * cs.length ≤ fuel) :
    value fuel cs = value (2 * cs.length) cs := by
  induction fuel, h using Nat.le_induction with
  | base => rfl
  | succ fuel hle ih => rw [(settled_all fuel).1 cs hle, ih]

end Read

/-- **A text stands for null exactly if it is null**, with white space
around it. -/
theorem parse_eq_null_iff (s : String) : parse s = some .null ↔ IsNull s := by
  unfold parse
  constructor
  · intro h
    split at h
    · cases h
    next v rest hvalue =>
    split at h
    · next hend =>
      cases h
      rw [← Read.value_of_le (Nat.le_succ _), Read.value_eq_null_iff] at hvalue
      refine ⟨s.toList.takeWhile Read.isSpace, rest, fun c hc =>
        List.mem_takeWhile_imp hc, Read.skipSpace_eq_nil_iff.mp hend, ?_⟩
      rw [List.append_assoc, ← hvalue]
      exact List.takeWhile_append_dropWhile.symm
    · cases h
  · rintro ⟨before, after, hbefore, hafter, hs⟩
    have hskip : Read.skipSpace s.toList = ['n', 'u', 'l', 'l'] ++ after := by
      rw [hs, List.append_assoc]
      exact List.dropWhile_append_of_pos hbefore
    rw [← Read.value_of_le (Nat.le_succ _), Read.value_eq_null_iff.mpr hskip]
    exact if_pos (Read.skipSpace_eq_nil_iff.mpr hafter)

/-! ## Writing -/

namespace Write

/-- A character of a text, as the standard library writes it: two more of
the control characters have a short form. -/
def escape (c : Char) : List Char :=
  if c = '\x08' then ['\\', 'b'] else if c = '\x0c' then ['\\', 'f']
    else (Json.escape c).toList

/-- A text between quotes. -/
def quote (s : String) : List Char := '"' :: s.toList.flatMap escape ++ ['"']

/-- A member of an object of texts. -/
def member (m : String × String) : List Char := quote m.1 ++ ':' :: quote m.2

/-- The members of an object of texts. -/
def members : List (String × String) → List Char
  | [] => []
  | [m] => member m
  | m :: m' :: ms => member m ++ ',' :: members (m' :: ms)

/-- An object of texts. -/
def object (ms : List (String × String)) : String :=
  String.ofList ('\x7b' :: members ms ++ ['\x7d'])

end Write

end Json
