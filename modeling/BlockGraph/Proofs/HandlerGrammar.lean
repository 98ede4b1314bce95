import Mathlib.Algebra.Group.Nat.Defs
import Mathlib.Data.List.Forall2
import Mathlib.Data.List.TakeWhile
import BlockGraph.CommandLine

/-!
# The grammar of handler arguments

What an argument says is defined on the parts that it falls into at its colons: a part spells a word if it is a
decimal number below `2 ^ 64`, with a plus sign before it or without, between white space (`SpellsWord`), and three
or four parts describe a handler (`Handler.Describes`). Main statement: `ofArgument_exact`. An argument is read as
the handler that its parts describe, and every other argument is refused.
-/

namespace BlockGraph

namespace Text

/-- The code points with the Unicode property `White_Space`. -/
def whiteSpace : List Nat := [
  0x09, 0x0a, 0x0b, 0x0c, 0x0d, 0x20, 0x85, 0xa0, 0x1680, 0x2000, 0x2001, 0x2002, 0x2003, 0x2004, 0x2005, 0x2006,
  0x2007, 0x2008, 0x2009, 0x200a, 0x2028, 0x2029, 0x202f, 0x205f, 0x3000]

/-- One digit or more, and the number that they denote. The first ones may be zeros. -/
inductive Decimal : List Char → Nat → Prop
  | digit {d : Nat} : d < 10 → Decimal [Nat.digitChar d] d
  | snoc {text : List Char} {n d : Nat} : Decimal text n → d < 10 →
      Decimal (text ++ [Nat.digitChar d]) (10 * n + d)

/-- The same, and a plus sign may stand before them. -/
inductive Numeral : List Char → Nat → Prop
  | plain {text : List Char} {n : Nat} : Decimal text n → Numeral text n
  | plus {text : List Char} {n : Nat} : Decimal text n → Numeral ('+' :: text) n

/-- The part is a numeral between white space, if there is any, and its number is below `2 ^ 64`. -/
def SpellsWord (part : List Char) (n : Nat) : Prop :=
  ∃ before numeral after, part = before ++ numeral ++ after ∧
    (∀ c ∈ before, c.toNat ∈ whiteSpace) ∧ (∀ c ∈ after, c.toNat ∈ whiteSpace) ∧
    Numeral numeral n ∧ n < 2 ^ 64

variable {text digits part before core after : List Char} {n d : Nat} {c : Char}

/-! ## Numbers -/

theorem exists_digitChar (h : c.isDigit) : ∃ d < 10, c = Nat.digitChar d := by
  obtain ⟨hge, hle⟩ := Char.isDigit_iff_toNat.1 h
  rw [show '0'.toNat = 48 from rfl] at hge
  rw [show '9'.toNat = 57 from rfl] at hle
  have hlt : c.toNat - 48 < 10 := by omega
  refine ⟨c.toNat - 48, hlt, Char.toNat_inj.1 ?_⟩
  rw [Nat.toNat_digitChar_of_lt_ten hlt]
  omega

theorem ofDigitChars_digitChar (hd : d < 10) :
    Nat.ofDigitChars 10 (Nat.digitChar d :: digits) n = Nat.ofDigitChars 10 digits (10 * n + d) := by
  rw [Nat.ofDigitChars_cons, Nat.toNat_digitChar_of_lt_ten hd, show '0'.toNat = 48 from rfl, Nat.add_sub_cancel_left]

/-- Further digits may follow. -/
theorem Decimal.append (h : Decimal text n) (hdigits : ∀ c ∈ digits, c.isDigit) :
    Decimal (text ++ digits) (Nat.ofDigitChars 10 digits n) := by
  -- Digits are read from the left and numbers grow at the right: each digit read extends `text`.
  induction digits generalizing text n with
  | nil => rwa [List.append_nil]
  | cons c digits ih =>
    obtain ⟨d, hd, rfl⟩ := exists_digitChar (hdigits c List.mem_cons_self)
    have hrest := ih (h.snoc hd) fun c hc => hdigits c (List.mem_cons_of_mem _ hc)
    rwa [List.append_assoc, List.singleton_append, ← ofDigitChars_digitChar hd] at hrest

theorem decimal_iff : Decimal digits n ↔
    digits ≠ [] ∧ digits.all Char.isDigit ∧ Nat.ofDigitChars 10 digits 0 = n := by
  constructor
  · intro h
    induction h with
    | @digit d hd =>
      exact ⟨List.cons_ne_nil _ _, by simpa using hd, by rw [ofDigitChars_digitChar hd]; simp⟩
    | @snoc text n d _ hd ih =>
      obtain ⟨-, hall, hvalue⟩ := ih
      refine ⟨by simp, ?_, ?_⟩
      · rw [List.all_append, hall]
        simpa using hd
      · rw [Nat.ofDigitChars_append, ofDigitChars_digitChar hd, hvalue, Nat.ofDigitChars_nil]
  · rintro ⟨hne, hall, rfl⟩
    rw [List.all_eq_true] at hall
    cases digits with
    | nil => exact absurd rfl hne
    | cons c digits =>
      obtain ⟨d, hd, rfl⟩ := exists_digitChar (hall c List.mem_cons_self)
      have h := (Decimal.digit hd).append fun c hc => hall c (List.mem_cons_of_mem _ hc)
      rwa [ofDigitChars_digitChar hd, Nat.mul_zero, Nat.zero_add]

theorem Decimal.isDigit (h : Decimal digits n) (hc : c ∈ digits) : c.isDigit :=
  List.all_eq_true.1 (decimal_iff.1 h).2.1 c hc

theorem numeral_iff : Numeral text n ↔ Decimal (unsignedPart text) n := by
  unfold unsignedPart
  split
  · rename_i digits
    constructor
    · rintro (h | h)
      · exact absurd (h.isDigit List.mem_cons_self) (by decide)
      · exact h
    · exact .plus
  · rename_i text hplain
    constructor
    · rintro (h | @⟨digits, -, h⟩)
      · exact h
      · exact absurd rfl (hplain digits)
    · exact .plain

theorem readWord?_eq_some_iff : readWord? text = some n ↔ Numeral text n ∧ n < 2 ^ 64 := by
  rw [numeral_iff, decimal_iff, readWord?, Option.ite_none_right_eq_some, Option.some_inj]
  constructor
  · rintro ⟨⟨hne, hall, hlt⟩, rfl⟩
    exact ⟨⟨hne, hall, rfl⟩, hlt⟩
  · rintro ⟨⟨hne, hall, rfl⟩, hlt⟩
    exact ⟨⟨hne, hall, hlt⟩, rfl⟩

/-! ## White space -/

theorem isBlank_iff : isBlank c = true ↔ c.toNat ∈ whiteSpace := by
  simp only [isBlank, whiteSpace, Bool.or_eq_true, Bool.and_eq_true, decide_eq_true_eq, beq_iff_eq, List.mem_cons,
    List.not_mem_nil, or_false]
  omega

theorem isBlank_of_isDigit (h : c.isDigit) : isBlank c = false := by
  obtain ⟨d, hd, rfl⟩ := exists_digitChar h
  revert d
  decide

/-- No white space is part of a numeral. -/
theorem Numeral.isBlank (h : Numeral text n) (hc : c ∈ text) : isBlank c = false := by
  cases h with
  | plain h => exact isBlank_of_isDigit (h.isDigit hc)
  | plus h =>
    rcases List.mem_cons.1 hc with rfl | hc
    · rfl
    · exact isBlank_of_isDigit (h.isDigit hc)

theorem Numeral.ne_nil (h : Numeral text n) : text ≠ [] := by
  cases h with
  | plain h => exact (decimal_iff.1 h).1
  | plus _ => exact List.cons_ne_nil _ _

theorem exists_trim (text : List Char) : ∃ before after, text = before ++ trim text ++ after ∧
    (∀ c ∈ before, isBlank c = true) ∧ ∀ c ∈ after, isBlank c = true := by
  refine ⟨text.takeWhile isBlank, ((text.dropWhile isBlank).reverse.takeWhile isBlank).reverse, ?_, ?_, ?_⟩
  · rw [trim, List.append_assoc, ← List.reverse_append, List.takeWhile_append_dropWhile, List.reverse_reverse,
      List.takeWhile_append_dropWhile]
  · exact fun c hc => List.mem_takeWhile_imp hc
  · exact fun c hc => List.mem_takeWhile_imp (List.mem_reverse.1 hc)

theorem trim_append (hbefore : ∀ c ∈ before, isBlank c = true) (hafter : ∀ c ∈ after, isBlank c = true)
    (hcore : ∀ c ∈ core, isBlank c = false) (hne : core ≠ []) : trim (before ++ core ++ after) = core := by
  -- What is dropped ends where `core` starts. From behind, this is said of `core` reversed, with nothing after it.
  have hstop : ∀ core rest : List Char, (∀ c ∈ core, isBlank c = false) → core ≠ [] →
      (core ++ rest).dropWhile isBlank = core ++ rest := by
    intro core rest hcore hne
    cases core with
    | nil => exact absurd rfl hne
    | cons c core => exact List.dropWhile_cons_of_neg (by simp [hcore c List.mem_cons_self])
  have hback : core.reverse.dropWhile isBlank = core.reverse := by
    simpa using hstop core.reverse [] (by simpa using hcore) (by simpa using hne)
  rw [trim, List.append_assoc, List.dropWhile_append_of_pos hbefore, hstop core after hcore hne,
    List.reverse_append, List.dropWhile_append_of_pos (by simpa using hafter), hback, List.reverse_reverse]

/-- A part is read as the word that it spells. -/
theorem readWord?_trim_iff : readWord? (trim part) = some n ↔ SpellsWord part n := by
  rw [readWord?_eq_some_iff]
  constructor
  · rintro ⟨hnumeral, hlt⟩
    obtain ⟨before, after, heq, hbefore, hafter⟩ := exists_trim part
    exact ⟨before, trim part, after, heq, fun c hc => isBlank_iff.1 (hbefore c hc),
      fun c hc => isBlank_iff.1 (hafter c hc), hnumeral, hlt⟩
  · rintro ⟨before, numeral, after, rfl, hbefore, hafter, hnumeral, hlt⟩
    rw [trim_append (fun c hc => isBlank_iff.2 (hbefore c hc)) (fun c hc => isBlank_iff.2 (hafter c hc))
      (fun c => hnumeral.isBlank) hnumeral.ne_nil]
    exact ⟨hnumeral, hlt⟩

/-! ## Parts -/

theorem fields_eq_splitOn (separator : Char) (text : List Char) :
    fields separator text = text.splitOn separator := by
  induction text with
  | nil => rfl
  | cons c text ih =>
    rw [fields, ih, List.splitOn_cons_eq_if_modifyHead]
    by_cases hc : c = separator
    · rw [if_pos hc, if_pos (beq_iff_eq.2 hc)]
    · rw [if_neg hc, if_neg (mt beq_iff_eq.1 hc)]
      cases hfields : text.splitOn separator with
      | nil => exact absurd hfields (List.splitOn_ne_nil separator text)
      | cons field others => rfl

theorem mapM_eq_some_iff {f : List Char → Option Nat} : ∀ {parts : List (List Char)} {ns : List Nat},
    parts.mapM f = some ns ↔ List.Forall₂ (fun part n => f part = some n) parts ns
  | [], ns => by simp [eq_comm]
  | part :: parts, ns => by
    rw [List.mapM_cons, List.forall₂_cons_left_iff]
    simp only [Option.bind_eq_bind, Option.bind_eq_some_iff, Option.pure_def, Option.some_inj]
    constructor
    · rintro ⟨n, hn, ns, hns, rfl⟩
      exact ⟨n, ns, hn, mapM_eq_some_iff.1 hns, rfl⟩
    · rintro ⟨n, ns, hn, hns, rfl⟩
      exact ⟨n, hn, ns, mapM_eq_some_iff.2 hns, rfl⟩

/-- A number in decimal digits spells itself. -/
theorem spellsWord_toDigits (hn : n < 2 ^ 64) : SpellsWord (Nat.toDigits 10 n) n := by
  have hdecimal : Decimal (Nat.toDigits 10 n) n := decimal_iff.2
    ⟨Nat.toDigits_ne_nil, List.all_eq_true.2 fun c hc => Nat.isDigit_of_mem_toDigits (by decide) (by decide) hc,
      Nat.ofDigitChars_toDigits (by decide) (by decide)⟩
  exact ⟨[], _, [], by simp, by simp, by simp, .plain hdecimal, hn⟩

theorem colon_not_mem_toDigits (n : Nat) : ':' ∉ Nat.toDigits 10 n := fun h =>
  absurd (Nat.isDigit_of_mem_toDigits (by decide) (by decide) h) (by decide)

end Text

namespace Handler

open Text

variable {text : String} {parts : List (List Char)} {h : Handler}

/-- The parts of an argument describe a handler: where the protected range starts, where it ends, where the handler
starts, and what is caught, if that is not everything. The last number is below `2 ^ 16`. The handler has exactly
these numbers: `Site.index` gives back the one that became its target (`Site.index_ofIndex`). -/
inductive Describes : List (List Char) → Handler → Prop
  | three {a b c : List Char} {first limit target : Nat} :
    SpellsWord a first → SpellsWord b limit → SpellsWord c target →
      Describes [a, b, c]
        { first := first, limit := limit, target := .ofIndex target, catchType := 0, entry := none }
  | four {a b c d : List Char} {first limit target catchType : Nat} :
    SpellsWord a first → SpellsWord b limit → SpellsWord c target → SpellsWord d catchType →
      catchType < 2 ^ 16 →
      Describes [a, b, c, d]
        { first := first, limit := limit, target := .ofIndex target, catchType := catchType, entry := none }

theorem ofNumbers?_iff : (∃ ns, List.Forall₂ SpellsWord parts ns ∧ ofNumbers? ns = some h) ↔ Describes parts h := by
  constructor
  · rintro ⟨ns, hall, hns⟩
    unfold ofNumbers? at hns
    split at hns
    · cases hns
      match parts, hall with
      | [a, b, c], .cons ha (.cons hb (.cons hc .nil)) => exact .three ha hb hc
    · obtain ⟨hlt, hh⟩ := Option.ite_none_right_eq_some.1 hns
      cases hh
      match parts, hall with
      | [a, b, c, d], .cons ha (.cons hb (.cons hc (.cons hd .nil))) => exact .four ha hb hc hd hlt
    · cases hns
  · intro hdescribes
    cases hdescribes with
    | three ha hb hc => exact ⟨_, .cons ha (.cons hb (.cons hc .nil)), rfl⟩
    | four ha hb hc hd hlt => exact ⟨_, .cons ha (.cons hb (.cons hc (.cons hd .nil))), if_pos hlt⟩

theorem ofArgument?_eq_some_iff : ofArgument? text = some h ↔ Describes (text.toList.splitOn ':') h := by
  rw [ofArgument?, fields_eq_splitOn, Option.bind_eq_some_iff, ← ofNumbers?_iff]
  simp only [mapM_eq_some_iff, readWord?_trim_iff]

theorem ofArgument_ok_iff : ofArgument text = .ok h ↔ Describes (text.toList.splitOn ':') h := by
  rw [← ofArgument?_eq_some_iff, ofArgument]
  cases ofArgument? text <;> simp

/-- Every other argument is refused, with the whole of it in the message. -/
theorem ofArgument_error (hnone : ¬∃ h, Describes (text.toList.splitOn ':') h) :
    ofArgument text = .error (.badArgument (.handler text)) := by
  have hnot : ofArgument? text = none :=
    Option.eq_none_iff_forall_ne_some.2 fun h hh => hnone ⟨h, ofArgument?_eq_some_iff.1 hh⟩
  rw [ofArgument, hnot]

theorem message_badArgument (text : String) : (Fault.badArgument (.handler text)).message =
    "invalid argument: bad handler '" ++ text ++ "'" := by
  show "invalid argument: " ++ (toString "bad handler '" ++ toString text ++ toString "'") = _
  have hjoin : "invalid argument: bad handler '" = "invalid argument: " ++ "bad handler '" := rfl
  rw [hjoin, String.append_assoc, String.append_assoc, String.append_assoc]
  rfl

/-- The numbers of a handler, between colons. -/
theorem splitOn_numbers (first limit target catchType : Nat) :
    (s!"{first}:{limit}:{target}:{catchType}").toList.splitOn ':' =
      [Nat.toDigits 10 first, Nat.toDigits 10 limit, Nat.toDigits 10 target, Nat.toDigits 10 catchType] := by
  have htext : (s!"{first}:{limit}:{target}:{catchType}").toList =
      Nat.toDigits 10 first ++ ':' :: (Nat.toDigits 10 limit ++ ':' ::
        (Nat.toDigits 10 target ++ ':' :: Nat.toDigits 10 catchType)) := by
    have hcolon : (toString ":").toList = [':'] := rfl
    simp [hcolon]
  rw [htext, List.splitOn_append_cons_self_of_not_mem (colon_not_mem_toDigits _),
    List.splitOn_append_cons_self_of_not_mem (colon_not_mem_toDigits _),
    List.splitOn_append_cons_self_of_not_mem (colon_not_mem_toDigits _),
    List.splitOn_eq_singleton (colon_not_mem_toDigits _)]

/-- **Handler arguments are read by their grammar.** An argument is accepted if and only if its parts describe a
handler, and answered with that handler; numbers that are written in decimal digits come back. Every other argument
is refused with a message that quotes it. -/
theorem ofArgument_exact :
    (∀ text h, ofArgument text = .ok h ↔ Describes (text.toList.splitOn ':') h) ∧
    (∀ text, (¬∃ h, Describes (text.toList.splitOn ':') h) → ∃ fault, ofArgument text = .error fault ∧
      fault.kind = "InvalidArgument" ∧ fault.message = "invalid argument: bad handler '" ++ text ++ "'") ∧
    ∀ first limit target catchType, first < 2 ^ 64 → limit < 2 ^ 64 → target < 2 ^ 64 → catchType < 2 ^ 16 →
      ofArgument s!"{first}:{limit}:{target}:{catchType}" =
        .ok { first := first, limit := limit, target := .ofIndex target, catchType := catchType, entry := none } := by
  refine ⟨fun text h => ofArgument_ok_iff, fun text hnone => ⟨_, ofArgument_error hnone, rfl, ?_⟩,
    fun first limit target catchType hfirst hlimit htarget hcatch => ?_⟩
  · exact message_badArgument text
  · rw [ofArgument_ok_iff, splitOn_numbers]
    exact .four (spellsWord_toDigits hfirst) (spellsWord_toDigits hlimit) (spellsWord_toDigits htarget)
      (spellsWord_toDigits (Nat.lt_of_lt_of_le hcatch (by decide))) hcatch

/-- White space, a sign and zeros in front are read over; `2 ^ 64 - 1` and `2 ^ 16 - 1` come back; a catch type that
takes more than sixteen bits is refused. -/
theorem padded_greatest_and_wide_arguments :
    ofArgument " +007:4\t:6" =
      .ok { first := 7, limit := 4, target := .code 6, catchType := 0, entry := none } ∧
    ofArgument "0:18446744073709551615:18446744073709551615:65535" =
      .ok { first := 0, limit := 2 ^ 64 - 1, target := .unlock, catchType := 65535, entry := none } ∧
    (¬∃ h, Describes ("1:4:6:65536".toList.splitOn ':') h) ∧
    ∃ fault, ofArgument "1:4:6:65536" = .error fault ∧ fault.kind = "InvalidArgument" ∧
      fault.message = "invalid argument: bad handler '1:4:6:65536'" := by
  have hparts : " +007:4\t:6".toList.splitOn ':' =
      [[' ', '+', '0', '0', '7'], ['4', '\t'], ['6']] := by decide +kernel
  have hseven : Decimal ['0', '0', '7'] 7 := decimal_iff.2 (by decide +kernel)
  have hfirst : SpellsWord [' ', '+', '0', '0', '7'] 7 :=
    ⟨[' '], ['+', '0', '0', '7'], [], rfl, by simp [whiteSpace], by simp, .plus hseven, by decide⟩
  have hlimit : SpellsWord ['4', '\t'] 4 :=
    ⟨[], ['4'], ['\t'], rfl, by simp, by simp [whiteSpace], .plain (.digit (d := 4) (by decide)), by decide⟩
  have htarget : SpellsWord ['6'] 6 := spellsWord_toDigits (n := 6) (by decide)
  have hread := (ofArgument_exact.1 " +007:4\t:6" _).2 (by rw [hparts]; exact .three hfirst hlimit htarget)
  have hwide : ¬∃ h, Describes ("1:4:6:65536".toList.splitOn ':') h := by
    rintro ⟨h, hdescribes⟩
    have hok := (ofArgument_exact.1 _ h).2 hdescribes
    have hnone : ofArgument? "1:4:6:65536" = none := by decide +kernel
    rw [ofArgument, hnone] at hok
    cases hok
  have hgreatest := ofArgument_exact.2.2 0 18446744073709551615 18446744073709551615 65535
    (by decide) (by decide) (by decide) (by decide)
  obtain ⟨fault, hfault, hkind, hmessage⟩ := ofArgument_exact.2.1 _ hwide
  refine ⟨hread, ?_, hwide, fault, hfault, hkind, ?_⟩
  · rw [show (2 : Nat) ^ 64 - 1 = 18446744073709551615 by decide]
    exact hgreatest
  · rw [hmessage]
    decide +kernel

end Handler
end BlockGraph
