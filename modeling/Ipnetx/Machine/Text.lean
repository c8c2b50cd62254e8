import Mathlib.Data.List.Infix
import Mathlib.Data.List.TakeWhile
import Ipnetx.Machine.Word

/-! # Text

    A text is the list of its characters.

    * `splitOnce`: split at the leftmost occurrence of a separator
      (`FirstSplit`).
    * `parseUnsigned`, `displayUnsigned`: decimal texts of words, as the
      standard library reads and prints them.  The reader also takes one
      leading `+` (`parseUnsigned_eq_some`).
    * `readGivenChar`, `readNumber`, `readSeparator`: the readers that address
      parsers are made of. -/

namespace Machine

/-- A text. -/
abbrev Text : Type := List Char

/-! ## Section 1: Splitting -/

section
variable {α : Type}

/-- `a` and `b` are what stands before and after the first occurrence of `sep` in `s`. -/
structure FirstSplit (sep s a b : List α) : Prop where
  eq : s = a ++ sep ++ b
  first : ∀ a' b', s = a' ++ sep ++ b' → a.length ≤ a'.length

/-- A split is the first one when no occurrence starts before it. -/
theorem FirstSplit.intro {sep s a b : List α} (hne : sep ≠ []) (h : s = a ++ sep ++ b)
    (hno : ¬ sep <:+: a ++ sep.dropLast) : FirstSplit sep s a b := by
  refine ⟨h, ?_⟩
  intro a' b' h'
  by_contra hlt
  have hlast : sep.dropLast ++ [sep.getLast hne] = sep := List.dropLast_append_getLast hne
  have hlen : sep.dropLast.length + 1 = sep.length := by
    rw [List.length_dropLast]
    have := List.length_pos_iff.mpr hne
    omega
  -- both are initial parts of `s`, and the earlier occurrence ends no later
  have hpre : a ++ sep.dropLast <+: s := by
    rw [h]
    exact ⟨[sep.getLast hne] ++ b, by rw [← List.append_assoc, List.append_assoc a, hlast]⟩
  have hpre' : a' ++ sep <+: s := ⟨b', h'.symm⟩
  have hle : (a' ++ sep).length ≤ (a ++ sep.dropLast).length := by
    rw [List.length_append, List.length_append]
    omega
  exact hno ((List.suffix_append a' sep).isInfix.trans
    (List.prefix_of_prefix_length_le hpre' hpre hle).isInfix)

/-- For a separator of one element, nothing before it is that element. -/
theorem firstSplit_singleton {c : α} {s a b : List α} :
    FirstSplit [c] s a b ↔ s = a ++ c :: b ∧ c ∉ a := by
  constructor
  · intro h
    have heq : s = a ++ c :: b := by
      rw [h.eq, List.append_assoc]
      rfl
    have hno : c ∉ a := by
      intro hc
      obtain ⟨a₁, a₂, rfl⟩ := List.append_of_mem hc
      have hlt := h.first a₁ (a₂ ++ c :: b) (by rw [h.eq]; simp)
      rw [List.length_append, List.length_cons] at hlt
      omega
    exact ⟨heq, hno⟩
  · intro h
    have heq : s = a ++ [c] ++ b := by
      rw [h.1, List.append_assoc]
      rfl
    have hno : ¬ [c] <:+: a ++ [] := by
      rw [List.append_nil, List.singleton_infix_iff]
      exact h.2
    exact FirstSplit.intro (List.cons_ne_nil c []) heq hno

/-- An occurrence is a prefix or one in the rest. -/
private theorem cons_eq_split {sep cs a b : List α} {c : α} (hpre : ¬ sep <+: c :: cs)
    (h : c :: cs = a ++ sep ++ b) : ∃ a', a = c :: a' ∧ cs = a' ++ sep ++ b := by
  cases a with
  | nil => exact absurd ⟨b, h.symm⟩ hpre
  | cons d a' =>
    rw [List.cons_append, List.cons_append, List.cons.injEq] at h
    exact ⟨a', by rw [h.1], h.2⟩

variable [DecidableEq α]

/-- `s.split_once(sep)`. -/
def splitOnce (sep s : List α) : Option (List α × List α) :=
  if sep <+: s then some ([], s.drop sep.length)
  else
    match s with
    | [] => none
    | c :: cs => (splitOnce sep cs).map fun p => (c :: p.1, p.2)

/-- A text that starts with the separator is split there. -/
private theorem splitOnce_eq_some_of_prefix {sep s a b : List α} (hpre : sep <+: s) :
    splitOnce sep s = some (a, b) ↔ FirstSplit sep s a b := by
  obtain ⟨t, rfl⟩ := hpre
  unfold splitOnce
  rw [if_pos (List.prefix_append sep t), List.drop_left]
  constructor
  · intro h
    cases h
    exact ⟨rfl, fun _ _ _ => Nat.zero_le _⟩
  · intro h
    have ha : a = [] := List.length_eq_zero_iff.mp (Nat.le_zero.mp (h.first [] t rfl))
    have heq := h.eq
    rw [ha, List.nil_append] at heq
    rw [ha, List.append_cancel_left heq]

theorem splitOnce_eq_some {sep s a b : List α} :
    splitOnce sep s = some (a, b) ↔ FirstSplit sep s a b := by
  induction s generalizing a with
  | nil =>
    by_cases hpre : sep <+: []
    · exact splitOnce_eq_some_of_prefix hpre
    · unfold splitOnce
      rw [if_neg hpre]
      constructor
      · intro h; cases h
      · intro h
        have hnil := (List.append_eq_nil_iff.mp h.eq.symm).1
        exact absurd (List.prefix_nil.mpr (List.append_eq_nil_iff.mp hnil).2) hpre
  | cons c cs ih =>
    by_cases hpre : sep <+: c :: cs
    · exact splitOnce_eq_some_of_prefix hpre
    · unfold splitOnce
      rw [if_neg hpre]
      simp only [Option.map_eq_some_iff, Prod.exists, Prod.mk.injEq]
      constructor
      · intro hin
        obtain ⟨a₀, b₀, hsplit, rfl, rfl⟩ := hin
        have h := ih.mp hsplit
        have hfirst : ∀ a' b', c :: cs = a' ++ sep ++ b' → (c :: a₀).length ≤ a'.length := by
          intro a' b' heq
          obtain ⟨a'', rfl, hcs⟩ := cons_eq_split hpre heq
          exact Nat.succ_le_succ (h.first a'' b' hcs)
        exact ⟨by rw [h.eq]; rfl, hfirst⟩
      · intro h
        obtain ⟨a₀, rfl, hcs⟩ := cons_eq_split hpre h.eq
        have hfirst : ∀ a' b', cs = a' ++ sep ++ b' → a₀.length ≤ a'.length := by
          intro a' b' heq
          exact Nat.le_of_succ_le_succ (h.first (c :: a') b' (by rw [heq]; rfl))
        exact ⟨a₀, b, ih.mpr ⟨hcs, hfirst⟩, rfl, rfl⟩

theorem splitOnce_eq_none {sep s : List α} : splitOnce sep s = none ↔ ¬ sep <:+: s := by
  induction s with
  | nil =>
    unfold splitOnce
    simp [List.prefix_nil, List.infix_nil]
  | cons c cs ih =>
    unfold splitOnce
    rw [List.infix_cons_iff, not_or]
    by_cases hpre : sep <+: c :: cs
    · simp [hpre]
    · simp [hpre, ih]

theorem FirstSplit.unique {sep s a b a' b' : List α} (h : FirstSplit sep s a b)
    (h' : FirstSplit sep s a' b') : a = a' ∧ b = b' := by
  have hsplit := (splitOnce_eq_some.mpr h).symm.trans (splitOnce_eq_some.mpr h')
  rwa [Option.some.injEq, Prod.mk.injEq] at hsplit

end

/-! ## Section 2: Digits -/

/-- The value of an ASCII digit or letter, letters going on after the digits. -/
def alnumValue (c : Char) : Option ℕ :=
  if c.isDigit then some (c.toNat - '0'.toNat)
  else if c.isLower then some (c.toNat - 'a'.toNat + 10)
  else if c.isUpper then some (c.toNat - 'A'.toNat + 10)
  else none

/-- `c.to_digit(radix)`. -/
def toDigit (radix : ℕ) (c : Char) : Option ℕ :=
  (alnumValue c).filter fun d => decide (d < radix)

/-- `c.is_digit(radix)`. -/
def isDigitIn (radix : ℕ) (c : Char) : Bool := (toDigit radix c).isSome

/-- The value of a string of digits. -/
def digitsValue (radix : ℕ) (ds : Text) : ℕ :=
  ds.foldl (fun n c => radix * n + (toDigit radix c).getD 0) 0

theorem toDigit_ten {c : Char} {d : ℕ} :
    toDigit 10 c = some d ↔ c.isDigit = true ∧ d = c.toNat - '0'.toNat := by
  unfold toDigit alnumValue
  rw [Option.filter_eq_some_iff, decide_eq_true_iff]
  by_cases hc : c.isDigit = true
  · have hlt : c.toNat - '0'.toNat < 10 := by
      have h0 : '0'.toNat = 48 := rfl
      have h9 : '9'.toNat = 57 := rfl
      have := (Char.isDigit_iff_toNat.mp hc).2
      omega
    rw [if_pos hc, Option.some.injEq]
    constructor
    · exact fun h => ⟨hc, h.1.symm⟩
    · exact fun h => ⟨h.2.symm, h.2 ▸ hlt⟩
  · -- letters have values from ten on
    rw [if_neg hc]
    constructor
    · intro hin
      obtain ⟨hd, hlt⟩ := hin
      split at hd
      · cases hd
        omega
      · split at hd
        · cases hd
          omega
        · cases hd
    · exact fun h => absurd h.1 hc

/-- The digits that `Nat.toDigits` writes are read back. -/
theorem toDigit_digitChar {radix d : ℕ} (hr : radix ≤ 16) (hd : d < radix) :
    toDigit radix d.digitChar = some d := by
  have hall : ∀ r, r ≤ 16 → ∀ e, e < r → toDigit r e.digitChar = some e := by decide
  exact hall radix hr d hd

theorem digitsValue_concat (radix : ℕ) (ds : Text) (c : Char) :
    digitsValue radix (ds ++ [c]) = radix * digitsValue radix ds + (toDigit radix c).getD 0 := by
  simp [digitsValue]

section
variable {radix : ℕ} (h1 : 1 < radix) (h16 : radix ≤ 16)
include h1 h16

theorem digitsValue_toDigits (n : ℕ) : digitsValue radix (Nat.toDigits radix n) = n := by
  induction n using Nat.base_induction radix h1 with
  | single d hd =>
    rw [Nat.toDigits_of_lt_base hd]
    simp [digitsValue, toDigit_digitChar h16 hd]
  | digit n d hd hn ih =>
    rw [← Nat.toDigits_append_toDigits h1 hn hd, Nat.toDigits_of_lt_base hd, digitsValue_concat,
      ih, toDigit_digitChar h16 hd, Option.getD_some]

theorem isDigitIn_of_mem_toDigits {n : ℕ} {c : Char} (hc : c ∈ Nat.toDigits radix n) :
    isDigitIn radix c = true := by
  induction n using Nat.base_induction radix h1 with
  | single d hd =>
    rw [Nat.toDigits_of_lt_base hd] at hc
    rw [List.mem_singleton.mp hc, isDigitIn, toDigit_digitChar h16 hd, Option.isSome_some]
  | digit n d hd hn ih =>
    rw [← Nat.toDigits_append_toDigits h1 hn hd, Nat.toDigits_of_lt_base hd] at hc
    rcases List.mem_append.mp hc with h | h
    · exact ih h
    · rw [List.mem_singleton.mp h, isDigitIn, toDigit_digitChar h16 hd, Option.isSome_some]

end

/-! ## Section 3: Decimal words -/

/-- `ds` is a non-empty string of ASCII digits with the value `n`. -/
structure Decimal (ds : Text) (n : ℕ) : Prop where
  ne_nil : ds ≠ []
  digits : ∀ c ∈ ds, c.isDigit = true
  value : Nat.ofDigitChars 10 ds 0 = n

/-- The digits loop of `uN::from_str`, with its checked operations. -/
def parseDigits {w : ℕ} : Text → BitVec w → Option (BitVec w)
  | [], result => some result
  | c :: cs, result => do
      let result ← Word.checkedMul result 10
      let x ← toDigit 10 c
      let result ← Word.checkedAdd result (BitVec.ofNat w x)
      parseDigits cs result

/-- The digits after an optional leading `+`. -/
def stripPlus : Text → Text
  | '+' :: digits => digits
  | s => s

/-- `uN::from_str`. -/
def parseUnsigned (w : ℕ) (s : Text) : Option (BitVec w) :=
  if stripPlus s = [] then none else parseDigits (stripPlus s) 0

/-- `uN::fmt`. -/
def displayUnsigned {w : ℕ} (n : BitVec w) : Text := Nat.toDigits 10 n.toNat

theorem le_ofDigitChars (cs : Text) (init : ℕ) : init ≤ Nat.ofDigitChars 10 cs init := by
  rw [Nat.ofDigitChars_eq_ofDigitChars_zero]
  exact (Nat.le_mul_of_pos_left init (Nat.pow_pos (by decide))).trans (Nat.le_add_right _ _)

theorem toDigit_ten_lt {c : Char} {d : ℕ} (h : toDigit 10 c = some d) : d < 10 :=
  decide_eq_true_iff.mp (Option.filter_eq_some_iff.mp h).2

/-- The loop reads digits only, and returns their value when it fits. -/
theorem parseDigits_eq_some {w : ℕ} (hw : 10 < 2 ^ w) {cs : Text} {acc n : BitVec w} :
    parseDigits cs acc = some n ↔
      (∀ c ∈ cs, c.isDigit = true) ∧ Nat.ofDigitChars 10 cs acc.toNat = n.toNat := by
  have hten : (10 : BitVec w).toNat = 10 := Nat.mod_eq_of_lt hw
  have hdigit : ∀ {c : Char} {d : ℕ}, toDigit 10 c = some d → (BitVec.ofNat w d).toNat = d := by
    intro c d h
    rw [BitVec.toNat_ofNat, Nat.mod_eq_of_lt ((toDigit_ten_lt h).trans hw)]
  induction cs generalizing acc with
  | nil => simp [parseDigits, BitVec.toNat_inj]
  | cons c cs ih =>
    unfold parseDigits
    simp only [Option.bind_eq_bind, Option.bind_eq_some_iff, Word.checkedMul_eq_some, hten,
      Word.checkedAdd_eq_some, ih, Nat.ofDigitChars_cons, List.forall_mem_cons]
    constructor
    · intro hin
      obtain ⟨m, hm, x, hx, r, hr, hcs, hval⟩ := hin
      obtain ⟨hc, hxc⟩ := toDigit_ten.mp hx
      rw [hdigit hx, hm, hxc, Nat.mul_comm] at hr
      exact ⟨⟨hc, hcs⟩, hr ▸ hval⟩
    · intro hin
      obtain ⟨⟨hc, hcs⟩, hval⟩ := hin
      have hx := toDigit_ten.mpr ⟨hc, rfl⟩
      -- the value only grows, so nothing overflows on the way
      have hgrow := le_ofDigitChars cs (10 * acc.toNat + (c.toNat - '0'.toNat))
      have hn := n.isLt
      rw [hval] at hgrow
      have hm : (BitVec.ofNat w (acc.toNat * 10)).toNat = acc.toNat * 10 := by
        rw [BitVec.toNat_ofNat, Nat.mod_eq_of_lt (by omega)]
      have hr : (BitVec.ofNat w (10 * acc.toNat + (c.toNat - '0'.toNat))).toNat =
          10 * acc.toNat + (c.toNat - '0'.toNat) := by
        rw [BitVec.toNat_ofNat, Nat.mod_eq_of_lt (by omega)]
      have hsum : (BitVec.ofNat w (10 * acc.toNat + (c.toNat - '0'.toNat))).toNat =
          (BitVec.ofNat w (acc.toNat * 10)).toNat +
            (BitVec.ofNat w (c.toNat - '0'.toNat)).toNat := by
        rw [hr, hm, hdigit hx, Nat.mul_comm]
      exact ⟨_, hm, _, hx, _, hsum, hcs, by rw [hr]; exact hval⟩

theorem stripPlus_cases (s : Text) : stripPlus s = s ∨ s = '+' :: stripPlus s := by
  unfold stripPlus
  split
  · exact Or.inr rfl
  · exact Or.inl rfl

theorem stripPlus_of_digits {ds : Text} (h : ∀ c ∈ ds, c.isDigit = true) : stripPlus ds = ds := by
  unfold stripPlus
  split
  · exact absurd (h '+' List.mem_cons_self) (by decide)
  · rfl

/-- The reader accepts decimal texts of words, with or without a leading `+`. -/
theorem parseUnsigned_eq_some {w : ℕ} (hw : 10 < 2 ^ w) {s : Text} {n : BitVec w} :
    parseUnsigned w s = some n ↔ ∃ ds, (s = ds ∨ s = '+' :: ds) ∧ Decimal ds n.toNat := by
  have hzero : (0 : BitVec w).toNat = 0 := BitVec.toNat_zero
  unfold parseUnsigned
  constructor
  · intro h
    split at h
    · cases h
    · next hne =>
      rw [parseDigits_eq_some hw, hzero] at h
      exact ⟨stripPlus s, (stripPlus_cases s).imp Eq.symm id, hne, h.1, h.2⟩
  · intro hin
    obtain ⟨ds, hs, hds⟩ := hin
    have hstrip : stripPlus s = ds := by
      rcases hs with rfl | rfl
      · exact stripPlus_of_digits hds.digits
      · rfl
    rw [hstrip, if_neg hds.ne_nil, parseDigits_eq_some hw, hzero]
    exact ⟨hds.digits, hds.value⟩

theorem decimal_displayUnsigned {w : ℕ} (n : BitVec w) : Decimal (displayUnsigned n) n.toNat :=
  ⟨Nat.toDigits_ne_nil, fun _ hc => Nat.isDigit_of_mem_toDigits (by decide) (by decide) hc,
    Nat.ofDigitChars_ten_toDigits⟩

/-- What is printed is read back. -/
theorem parseUnsigned_displayUnsigned {w : ℕ} (hw : 10 < 2 ^ w) (n : BitVec w) :
    parseUnsigned w (displayUnsigned n) = some n :=
  (parseUnsigned_eq_some hw).mpr ⟨_, Or.inl rfl, decimal_displayUnsigned n⟩

/-! ## Section 4: Readers

A reader takes a value off the front of a text and returns it with the rest. -/

/-- `Parser::read_given_char`. -/
def readGivenChar (c : Char) : Text → Option Text
  | d :: s => if d = c then some s else none
  | [] => none

/-- `Parser::read_number` with a limit on the digits, for a type of width `w`. -/
def readNumber (w radix maxDigits : ℕ) (allowZeroPrefix : Bool) (s : Text) :
    Option (BitVec w × Text) :=
  let digits := s.takeWhile (isDigitIn radix)
  let result := digitsValue radix digits
  if digits = [] ∨ maxDigits < digits.length then none
  else if allowZeroPrefix = false ∧ digits.head? = some '0' ∧ 1 < digits.length then none
  else if 2 ^ w ≤ result then none
  else some (BitVec.ofNat w result, s.dropWhile (isDigitIn radix))

/-- `Parser::read_separator`: every item but the first follows a separator. -/
def readSeparator {β : Type} (sep : Char) (i : ℕ) (inner : Text → Option (β × Text)) (s : Text) :
    Option (β × Text) :=
  if 0 < i then (readGivenChar sep s).bind inner else inner s

/-- `Parser::parse_with`: the whole text must be read. -/
def parseWith {β : Type} (read : Text → Option (β × Text)) (s : Text) : Option β :=
  match read s with
  | some (a, []) => some a
  | _ => none

@[simp] theorem readGivenChar_cons_self (c : Char) (s : Text) :
    readGivenChar c (c :: s) = some s := if_pos rfl

theorem readGivenChar_eq_some {c : Char} {s rest : Text} :
    readGivenChar c s = some rest ↔ s = c :: rest := by
  cases s with
  | nil => simp [readGivenChar]
  | cons d s => simp [readGivenChar, eq_comm]

@[simp] theorem readSeparator_zero {β : Type} (sep : Char) (inner : Text → Option (β × Text))
    (s : Text) : readSeparator sep 0 inner s = inner s := rfl

@[simp] theorem readSeparator_succ {β : Type} (sep : Char) (i : ℕ)
    (inner : Text → Option (β × Text)) (s : Text) :
    readSeparator sep (i + 1) inner s = (readGivenChar sep s).bind inner := rfl

theorem parseWith_eq_some {β : Type} {read : Text → Option (β × Text)} {s : Text} {a : β} :
    parseWith read s = some a ↔ read s = some (a, []) := by
  unfold parseWith
  constructor
  · intro h
    split at h
    · next h' =>
      rw [h', Option.some.inj h]
    · cases h
  · intro h
    rw [h]

/-- A number is read off in digits, as many as there are. -/
theorem readNumber_eq_some {w radix maxDigits : ℕ} {z : Bool} {s rest : Text} {n : BitVec w}
    (h : readNumber w radix maxDigits z s = some (n, rest)) :
    ∃ ds, s = ds ++ rest ∧ ds ≠ [] ∧ (∀ c ∈ ds, isDigitIn radix c = true) ∧
      ∀ c ∈ rest.head?, isDigitIn radix c = false := by
  unfold readNumber at h
  simp only at h
  split at h
  · cases h
  · next hne =>
    split at h
    · cases h
    · split at h
      · cases h
      · rw [Option.some.injEq, Prod.mk.injEq] at h
        have hs : s = s.takeWhile (isDigitIn radix) ++ rest := by
          rw [← h.2, List.takeWhile_append_dropWhile]
        have hstop : ∀ c ∈ rest.head?, isDigitIn radix c = false := by
          intro c hc
          rw [← h.2] at hc
          have hhead := List.head?_dropWhile_not (isDigitIn radix) s
          rw [Option.mem_def.mp hc] at hhead
          exact hhead
        exact ⟨_, hs, fun h0 => hne (Or.inl h0), fun c hc => List.mem_takeWhile_imp hc, hstop⟩

/-- Digits are split off at the first other character. -/
theorem span_digits {p : Char → Bool} {ds rest : Text} (hds : ∀ c ∈ ds, p c = true)
    (hrest : ∀ c ∈ rest.head?, p c = false) :
    (ds ++ rest).takeWhile p = ds ∧ (ds ++ rest).dropWhile p = rest := by
  rw [List.takeWhile_append_of_pos hds, List.dropWhile_append_of_pos hds]
  cases rest with
  | nil => simp
  | cons c rest => simp [hrest c rfl]

/-- Only the text of zero starts with a zero. -/
theorem head?_toDigits_ne_zero {radix n : ℕ} (h1 : 1 < radix) (hpos : 0 < n) :
    (Nat.toDigits radix n).head? ≠ some '0' := by
  induction n using Nat.base_induction radix h1 with
  | single d hd =>
    rw [Nat.toDigits_of_lt_base hd, List.head?_cons, Ne, Option.some.injEq, Nat.digitChar_eq_zero]
    omega
  | digit n d hd hn ih =>
    rw [← Nat.toDigits_append_toDigits h1 hn hd, List.head?_append_of_ne_nil _ Nat.toDigits_ne_nil]
    exact ih hn

section
variable {radix : ℕ} (h1 : 1 < radix) (h16 : radix ≤ 16)
include h1 h16

/-- A number that is printed without leading zeros is read back, up to the first character that
    is no digit. -/
theorem readNumber_toDigits {w maxDigits : ℕ} {z : Bool} (n : BitVec w) (hmax : 0 < maxDigits)
    (hn : n.toNat < radix ^ maxDigits) {rest : Text}
    (hrest : ∀ c ∈ rest.head?, isDigitIn radix c = false) :
    readNumber w radix maxDigits z (Nat.toDigits radix n.toNat ++ rest) = some (n, rest) := by
  obtain ⟨htake, hdrop⟩ :=
    span_digits (fun c hc => isDigitIn_of_mem_toDigits h1 h16 (n := n.toNat) hc) hrest
  have hlen := (Nat.length_toDigits_le_iff h1 hmax).mpr hn
  have hzero : ¬ (z = false ∧ (Nat.toDigits radix n.toNat).head? = some '0' ∧
      1 < (Nat.toDigits radix n.toNat).length) := by
    intro hin
    obtain ⟨_, hhead, hlong⟩ := hin
    by_cases hpos : 0 < n.toNat
    · exact head?_toDigits_ne_zero h1 hpos hhead
    · rw [Nat.eq_zero_of_not_pos hpos, Nat.toDigits_zero] at hlong
      exact absurd hlong (lt_irrefl 1)
  unfold readNumber
  simp only [htake, hdrop, digitsValue_toDigits h1 h16]
  rw [if_neg (not_or.mpr ⟨Nat.toDigits_ne_nil, not_lt.mpr hlen⟩), if_neg hzero,
    if_neg (not_le.mpr n.isLt), BitVec.ofNat_toNat, BitVec.setWidth_eq]

end

/-! ## Section 5: Parsers -/

section
variable {ε β : Type}

/-- `o.ok_or(e)`. -/
def okOr (e : ε) : Option β → Except ε β
  | some a => .ok a
  | none => .error e

@[simp] theorem okOr_some (e : ε) (a : β) : okOr e (some a) = .ok a := rfl

@[simp] theorem okOr_none (e : ε) : okOr e (none : Option β) = .error e := rfl

theorem okOr_bind_eq_ok {γ : Type} {e : ε} {o : Option β} {f : β → Except ε γ} {c : γ} :
    (okOr e o >>= f) = .ok c ↔ ∃ a, o = some a ∧ f a = .ok c := by
  cases o with
  | none => exact iff_of_false (fun h => nomatch h) (fun h => nomatch h.choose_spec.1)
  | some a => simp [bind, Except.bind]

/-- The first failure is the one that is returned. -/
theorem okOr_bind_eq_error {γ : Type} {e e' : ε} {o : Option β} {f : β → Except ε γ} :
    (okOr e o >>= f) = .error e' ↔ (o = none ∧ e = e') ∨ ∃ a, o = some a ∧ f a = .error e' := by
  cases o with
  | none => simp [bind, Except.bind]
  | some a => simp [bind, Except.bind]

theorem mapError_eq_ok {δ : Type} {f : ε → δ} {x : Except ε β} {a : β} :
    x.mapError f = .ok a ↔ x = .ok a := by
  cases x <;> simp [Except.mapError]

theorem mapError_eq_error {δ : Type} {f : ε → δ} {x : Except ε β} {d : δ} :
    x.mapError f = .error d ↔ ∃ e, x = .error e ∧ f e = d := by
  cases x <;> simp [Except.mapError]

/-- What `print` writes, `parse` reads back. -/
def ReadsBack (parse : Text → Except ε β) (print : β → Text) : Prop :=
  ∀ a, parse (print a) = .ok a

variable {parse : Text → Except ε β} {print : β → Text}

/-- Distinct values print differently. -/
theorem ReadsBack.injective (h : ReadsBack parse print) : Function.Injective print := by
  intro a b heq
  have hparse : (.ok a : Except ε β) = .ok b := by rw [← h a, ← h b, heq]
  exact Except.ok.inj hparse

end

end Machine
