import Mmn.Encoding
import Mmn.Scanner

/-!
# Where a JSON object ends

Objects whose values are texts, numbers and the like are written one after
the other. A reader that knows whether it is inside a text finds the end of
each: the first closing brace outside of texts. A text cannot deceive it,
because a quote or a backslash in the text is escaped. So the reader stops
with an object, and not before (`stops_object`), which is what it takes to
read a list of objects back from the joined JSON.
-/

open Scanner

namespace Json

/-- Where a reader of an object is. -/
inductive Place where
  | outside
  | inside
  | escaped

/-- **A reader of an object**: it stops at a closing brace outside of texts. -/
def scan : Place → Char → Option Place
  | .outside, c =>
    if c = '"' then some .inside else if c = '\x7d' then none else some .outside
  | .inside, c =>
    if c = '"' then some .outside else if c = '\\' then some .escaped
      else some .inside
  | .escaped, _ => some .inside

/-- **A value without braces**: the reader is outside of texts before and
after it. -/
def Flat (value : String) : Prop := Passes scan .outside value.toList .outside

/-! ## Texts -/

/-- Characters in a text that neither end it nor escape. -/
theorem passes_quiet {cs : List Char} (h : ∀ c ∈ cs, c ≠ '"' ∧ c ≠ '\\') :
    Passes scan .inside cs .inside :=
  passes_of_forall fun c hc => by rw [scan, if_neg (h c hc).1, if_neg (h c hc).2]

theorem hexDigit_quiet : ∀ n < 16, hexDigit n ≠ '"' ∧ hexDigit n ≠ '\\' := by
  decide

theorem passes_escaped (c : Char) : Passes scan .inside ['\\', c] .inside := rfl

/-- A character written as a number of four digits. -/
theorem passes_unicode {a b c : Char} {n : ℕ} (ha : a ≠ '"' ∧ a ≠ '\\')
    (hb : b ≠ '"' ∧ b ≠ '\\') (hc : c ≠ '"' ∧ c ≠ '\\') (hn : n < 16) :
    Passes scan .inside ['\\', 'u', a, b, c, hexDigit n] .inside := by
  refine passes_append (passes_escaped 'u') (passes_quiet ?_)
  simp only [List.forall_mem_cons, List.not_mem_nil, false_imp_iff,
    implies_true, and_true]
  exact ⟨ha, hb, hc, hexDigit_quiet n hn⟩

/-- **A character of a text**, escaped if need be, leaves the reader in the
text. -/
theorem passes_escape (c : Char) : Passes scan .inside (escape c).toList .inside := by
  have hlast : c.toNat % 16 < 16 := Nat.mod_lt _ (by decide)
  unfold escape
  split
  · rw [String.toList_ofList]
    exact passes_escaped c
  next hquiet =>
  split
  · exact passes_escaped 'n'
  split
  · exact passes_escaped 'r'
  split
  · exact passes_escaped 't'
  split
  · next h =>
    have hfirst : c.toNat / 16 < 16 := by
      obtain h | rfl | rfl | rfl := h
      · omega
      all_goals decide
    rw [String.toList_ofList]
    exact passes_unicode (by decide) (by decide) (hexDigit_quiet _ hfirst) hlast
  split
  · rw [String.toList_ofList]
    exact passes_unicode (by decide) (by decide) (by decide) hlast
  · rw [String.toList_singleton]
    exact passes_quiet (by simpa [not_or] using hquiet)

theorem flat_quoted {body : String} (h : Passes scan .inside body.toList .inside) :
    Flat ("\"" ++ body ++ "\"") := by
  unfold Flat
  rw [String.toList_append, String.toList_append]
  have hopen : Passes scan .outside "\"".toList .inside := rfl
  have hclose : Passes scan .inside "\"".toList .outside := rfl
  exact passes_append (passes_append hopen h) hclose

/-- **A text is passed whatever is in it.** -/
theorem flat_string (s : String) : Flat (string s) := by
  refine flat_quoted ?_
  generalize s.toList = cs
  induction cs with
  | nil => exact passes_nil _
  | cons c cs ih =>
    rw [escapeAll, String.toList_append]
    exact passes_append (passes_escape c) ih

/-! ## Numbers -/

/-- Characters outside of texts that neither open one nor end the object. -/
theorem flat_of_forall {s : String} (h : ∀ c ∈ s.toList, c ≠ '"' ∧ c ≠ '\x7d') :
    Flat s :=
  passes_of_forall fun c hc => by rw [scan, if_neg (h c hc).1, if_neg (h c hc).2]

theorem ne_of_mem_toString_nat {c d : Char} {n : ℕ} (hc : c ∈ (toString n).toList)
    (hd : d.isDigit = false) : c ≠ d := by
  rintro rfl
  exact List.count_eq_zero.mp (count_toString_nat hd n) hc

theorem ne_of_mem_toString_int {c d : Char} {i : ℤ} (hc : c ∈ (toString i).toList)
    (hd : d.isDigit = false) (hsign : d ≠ '-') : c ≠ d := by
  rintro rfl
  exact List.count_eq_zero.mp (count_toString_int hd hsign i) hc

theorem flat_toString_nat (n : ℕ) : Flat (toString n) :=
  flat_of_forall fun _ hc =>
    ⟨ne_of_mem_toString_nat hc (by decide), ne_of_mem_toString_nat hc (by decide)⟩

theorem flat_toString_int (i : ℤ) : Flat (toString i) :=
  flat_of_forall fun _ hc =>
    ⟨ne_of_mem_toString_int hc (by decide) (by decide),
      ne_of_mem_toString_int hc (by decide) (by decide)⟩

theorem flat_quoted_nat (n : ℕ) : Flat ("\"" ++ toString n ++ "\"") :=
  flat_quoted (passes_quiet fun _ hc =>
    ⟨ne_of_mem_toString_nat hc (by decide), ne_of_mem_toString_nat hc (by decide)⟩)

/-! ## Objects -/

theorem Flat.append {s t : String} (hs : Flat s) (ht : Flat t) : Flat (s ++ t) := by
  unfold Flat
  rw [String.toList_append]
  exact passes_append hs ht

/-- The members of an object with flat values. -/
theorem flat_members {ms : List (String × String)} (h : ∀ m ∈ ms, Flat m.2) :
    Flat (members ms) := by
  have hcolon : Flat ":" := rfl
  have hcomma : Flat "," := rfl
  have hmember : ∀ m : String × String, Flat m.2 → Flat (string m.1 ++ ":" ++ m.2) :=
    fun m hm => ((flat_string m.1).append hcolon).append hm
  induction ms with
  | nil => rfl
  | cons m ms ih =>
    have hm := hmember m (h m List.mem_cons_self)
    have hrest := ih fun m' hm' => h m' (List.mem_cons_of_mem m hm')
    cases ms with
    | nil => exact hm
    | cons m' ms => exact (hm.append hcomma).append hrest

/-- **The reader stops at the end of an object**, if its values are flat. -/
theorem stops_object {ms : List (String × String)} (h : ∀ m ∈ ms, Flat m.2) :
    Stops scan .outside (object ms).toList := by
  have hbody : Flat ("\x7b" ++ members ms) := Flat.append rfl (flat_members h)
  refine ⟨("\x7b" ++ members ms).toList, '\x7d', .outside, ?_, hbody, rfl⟩
  unfold object
  rw [String.toList_append]
  rfl

end Json
