import Overload.Number.Reading
import Overload.Proofs.Number.Doubles
import Overload.Proofs.Text.Numerals

/-! Texts that are read as numbers. -/

namespace Overload

open List Option

variable {cs ds : List Char} {mark : Char} {n : Nat}

variable {radix : Nat} {c : Char}

/-! ### The grammar of numeric texts -/

namespace NumericText

open Number Text Overload.Num

def IsLineTerminator (c : Char) : Prop := c.toNat ∈ [0x0a, 0x0d, 0x2028, 0x2029]

def IsSpaceSeparator (c : Char) : Prop :=
  c.toNat ∈ [0x20, 0xa0, 0x1680, 0x202f, 0x205f, 0x3000] ∨ 0x2000 ≤ c.toNat ∧ c.toNat ≤ 0x200a

def IsWhiteSpace (c : Char) : Prop := c.toNat ∈ [0x09, 0x0b, 0x0c, 0xfeff] ∨ IsSpaceSeparator c

def IsSpace (c : Char) : Prop := IsWhiteSpace c ∨ IsLineTerminator c

def Stripped (cs core : List Char) : Prop :=
  ∃ left right, cs = left ++ core ++ right ∧ (∀ c ∈ left, IsSpace c) ∧ (∀ c ∈ right, IsSpace c) ∧
    (∀ c ∈ core.head?, ¬ IsSpace c) ∧ ∀ c ∈ core.getLast?, ¬ IsSpace c

variable (digit : Char → Bool)

def Digits (cs : List Char) : Prop := cs ≠ [] ∧ ∀ c ∈ cs, digit c = true

inductive Sign : List Char → Prop
  | absent : Sign []
  | plus : Sign ['+']
  | minus : Sign ['-']

inductive Mantissa : List Char → Prop
  | whole {ds : List Char} : Digits digit ds → Mantissa ds
  | pointed {ds fs : List Char} :
    Digits digit ds → (∀ c ∈ fs, digit c = true) → Mantissa (ds ++ '.' :: fs)
  | fraction {fs : List Char} : Digits digit fs → Mantissa ('.' :: fs)

inductive Exponent : List Char → Prop
  | absent : Exponent []
  | present {mark : Char} {sign ds : List Char} :
    mark ∈ ['e', 'E'] → Sign sign → Digits digit ds → Exponent (mark :: (sign ++ ds))

def Decimal (cs : List Char) : Prop :=
  ∃ sign mantissa exponent, cs = sign ++ mantissa ++ exponent ∧ Sign sign ∧
    Mantissa digit mantissa ∧ Exponent digit exponent

inductive Radix : Char → Nat → Prop
  | hexadecimal {mark : Char} : mark ∈ ['x', 'X'] → Radix mark 16
  | octal {mark : Char} : mark ∈ ['o', 'O'] → Radix mark 8
  | binary {mark : Char} : mark ∈ ['b', 'B'] → Radix mark 2

def symbols : List Char :=
  ['0', '1', '2', '3', '4', '5', '6', '7', '8', '9', 'a', 'b', 'c', 'd', 'e', 'f']

def symbolValue (c : Char) : Nat := symbols.idxOf c.toLower

def RadixLiteral (cs : List Char) (n : Nat) : Prop :=
  ∃ mark radix ds, cs = '0' :: mark :: ds ∧ Radix mark radix ∧ ds ≠ [] ∧
    (∀ d ∈ ds, symbolValue d < radix) ∧ n = Nat.ofDigits radix (ds.map symbolValue).reverse

inductive Numeric : List Char → Prop
  | empty : Numeric []
  | infinity {sign : List Char} : Sign sign → Numeric (sign ++ "Infinity".toList)
  | decimal {cs : List Char} : Decimal digit cs → Numeric cs
  | radix {cs : List Char} {n : Nat} : RadixLiteral cs n → Numeric cs

/-! ### Space -/

lemma isBlank_iff : isBlank c = true ↔ IsSpace c := by
  simp only [isBlank, blanks, IsSpace, IsWhiteSpace, IsLineTerminator, IsSpaceSeparator,
    contains_eq_mem, decide_eq_true_eq, mem_cons, not_mem_nil, or_false]
  omega

lemma dropWhile_of_head {p : Char → Bool} (h : ∀ c ∈ cs.head?, ¬ p c = true) :
    cs.dropWhile p = cs := by
  cases cs with
  | nil => rfl
  | cons c cs => exact dropWhile_cons_of_neg (h c rfl)

lemma not_of_mem_head?_dropWhile {p : Char → Bool} (hc : c ∈ (cs.dropWhile p).head?) :
    ¬ p c = true := by
  have h := head?_dropWhile_not p cs
  rw [mem_def.1 hc] at h
  exact Bool.eq_false_iff.1 h

lemma Stripped.eq_trim {core : List Char} (h : Stripped cs core) : core = trim cs := by
  obtain ⟨left, right, rfl, hleft, hright, hhead, hlast⟩ := h
  simp only [← isBlank_iff] at hleft hright hhead hlast
  rw [trim, append_assoc, dropWhile_append_of_pos hleft]
  cases core with
  | nil =>
    have hnil : right.dropWhile isBlank = [] := dropWhile_eq_nil_iff.2 hright
    rw [nil_append, hnil]
    rfl
  | cons c core =>
    have hkeep : (c :: core ++ right).dropWhile isBlank = c :: core ++ right :=
      dropWhile_cons_of_neg (hhead c rfl)
    have hend : ∀ d ∈ (c :: core).reverse.head?, ¬ isBlank d = true := by
      rwa [head?_reverse]
    rw [hkeep, reverse_append,
      dropWhile_append_of_pos fun d hd => hright d (mem_reverse.1 hd),
      dropWhile_of_head hend, reverse_reverse]

lemma stripped_trim (cs : List Char) : Stripped cs (trim cs) := by
  have hleft := takeWhile_append_dropWhile (p := isBlank) (l := cs)
  set rest := cs.dropWhile isBlank with hrest
  have hright := takeWhile_append_dropWhile (p := isBlank) (l := rest.reverse)
  have hsplit : rest = trim cs ++ (rest.reverse.takeWhile isBlank).reverse := by
    rw [trim, ← hrest, ← reverse_append, hright, reverse_reverse]
  refine ⟨cs.takeWhile isBlank, (rest.reverse.takeWhile isBlank).reverse, ?_, ?_, ?_, ?_, ?_⟩
  · rw [append_assoc, ← hsplit, hleft]
  · exact fun c hc => isBlank_iff.1 (mem_takeWhile_imp hc)
  · exact fun c hc => isBlank_iff.1 (mem_takeWhile_imp (mem_reverse.1 hc))
  · intro c hc
    rw [← isBlank_iff]
    have hmem : c ∈ rest.head? := by
      rw [hsplit, head?_append, mem_def.1 hc]
      rfl
    exact not_of_mem_head?_dropWhile hmem
  · intro c hc
    rw [← isBlank_iff]
    rw [trim, getLast?_reverse] at hc
    exact not_of_mem_head?_dropWhile hc

lemma stripped_iff {core : List Char} : Stripped cs core ↔ core = trim cs :=
  ⟨Stripped.eq_trim, fun h => h ▸ stripped_trim cs⟩

/-! ### Decimal literals -/

lemma isDecimal_eq_isDigit (h : c.toNat < 128) : isDecimal c = c.isDigit := by
  rw [isDecimal, decimalValue?, if_pos h]
  split <;> simp_all

lemma ne_sign_of_isDecimal (h : isDecimal c = true) : c ≠ '+' ∧ c ≠ '-' :=
  ⟨fun hc => absurd (hc ▸ h) (by decide), fun hc => absurd (hc ▸ h) (by decide)⟩

lemma exists_sign (cs : List Char) : ∃ negative sign rest, cs = sign ++ rest ∧ Sign sign ∧
    takeSign cs = (negative, rest) := by
  fun_cases takeSign cs with
  | case1 cs => exact ⟨true, ['-'], cs, rfl, .minus, rfl⟩
  | case2 cs => exact ⟨false, ['+'], cs, rfl, .plus, rfl⟩
  | case3 => exact ⟨false, [], cs, rfl, .absent, rfl⟩

lemma takeSign_append {sign rest : List Char} (hsign : Sign sign)
    (hrest : ∀ c ∈ rest.head?, c ≠ '+' ∧ c ≠ '-') :
    takeSign (sign ++ rest) = (decide (sign = ['-']), rest) := by
  cases hsign with
  | absent =>
    rw [nil_append, takeSign.eq_def]
    split
    · exact absurd rfl (hrest _ rfl).2
    · exact absurd rfl (hrest _ rfl).1
    · rfl
  | plus => rfl
  | minus => rfl

lemma takeDigits_append {rest : List Char} (hds : ∀ c ∈ ds, isDecimal c = true)
    (hrest : ∀ c ∈ rest.head?, ¬ isDecimal c = true) : takeDigits (ds ++ rest) = (ds, rest) := by
  have htake : rest.takeWhile isDecimal = [] := by
    cases rest with
    | nil => rfl
    | cons c rest => exact takeWhile_cons_of_neg (hrest c rfl)
  rw [takeDigits, takeWhile_append_of_pos hds, dropWhile_append_of_pos hds, htake,
    dropWhile_of_head hrest, append_nil]

lemma exists_digits (cs : List Char) : ∃ ds rest, cs = ds ++ rest ∧
    (∀ c ∈ ds, isDecimal c = true) ∧ takeDigits cs = (ds, rest) :=
  ⟨_, _, takeWhile_append_dropWhile.symm, fun _ => mem_takeWhile_imp, rfl⟩

lemma scanExponent?_isSome : (scanExponent? cs).isSome = true ↔ Exponent isDecimal cs := by
  constructor
  · intro h
    cases cs with
    | nil => exact .absent
    | cons mark cs =>
      obtain ⟨negative, sign, rest, rfl, hsign, htake⟩ := exists_sign cs
      obtain ⟨ds, rest, rfl, hds, htake'⟩ := exists_digits rest
      rw [scanExponent?, htake] at h
      split at h
      case isFalse => cases h
      case isTrue hmark =>
        dsimp only at h
        rw [htake'] at h
        dsimp only at h
        split at h
        case isTrue => cases h
        case isFalse hshape =>
          obtain ⟨hne, rfl⟩ : ds ≠ [] ∧ rest = [] := by simpa using hshape
          rw [append_nil]
          exact .present (by simpa using hmark) hsign ⟨hne, hds⟩
  · intro h
    cases h with
    | absent => rfl
    | @present mark sign ds hmark hsign hds =>
      have htake := takeSign_append hsign fun c hc =>
        ne_sign_of_isDecimal (hds.2 c (mem_of_mem_head? hc))
      have htake' : takeDigits ds = (ds, []) := by
        rw [← takeDigits_append hds.2 (fun _ h => absurd h (by simp)), append_nil]
      have hmark' : mark = 'e' ∨ mark = 'E' := by simpa using hmark
      have hvalue : (digitsValue? ds).isSome = true := by
        rw [digitsValue?_isSome]
        exact List.all_eq_true.2 hds.2
      obtain ⟨n, hn⟩ := isSome_iff_exists.1 hvalue
      simp [scanExponent?, htake, htake', hmark', hds.1, hn]

lemma head?_exponent (h : Exponent isDecimal cs) :
    ∀ c ∈ cs.head?, ¬ isDecimal c = true ∧ c ≠ '.' := by
  intro c hc
  cases h with
  | absent => cases hc
  | present hmark hsign hds =>
    obtain rfl := some.inj hc
    rcases mem_pair.1 hmark with rfl | rfl <;> decide

lemma decimal_of_scan? (h : (scan? cs).isSome = true) : Decimal isDecimal cs := by
  obtain ⟨negative, sign, rest, rfl, hsign, htake⟩ := exists_sign cs
  obtain ⟨ds, rest, rfl, hds, htake'⟩ := exists_digits rest
  simp only [scan?, htake, htake'] at h
  split at h
  case h_1 more =>
    obtain ⟨fs, rest, rfl, hfs, hmore⟩ := exists_digits more
    rw [hmore] at h
    split at h
    case isTrue => cases h
    case isFalse hne =>
      rw [isSome_map, scanExponent?_isSome] at h
      rcases eq_or_ne ds [] with rfl | hds'
      · have hfs' : fs ≠ [] := by simpa using hne
        exact ⟨sign, '.' :: fs, rest, by simp, hsign, .fraction ⟨hfs', hfs⟩, h⟩
      · exact ⟨sign, ds ++ '.' :: fs, rest, by simp, hsign, .pointed ⟨hds', hds⟩ hfs, h⟩
  case h_2 =>
    split at h
    case isTrue => cases h
    case isFalse hne =>
      rw [isSome_map, scanExponent?_isSome] at h
      have hds' : ds ≠ [] := by simpa using hne
      exact ⟨sign, ds, rest, by simp, hsign, .whole ⟨hds', hds⟩, h⟩

lemma head?_mantissa (h : Mantissa isDecimal cs) (rest : List Char) :
    ∀ c ∈ (cs ++ rest).head?, c ≠ '+' ∧ c ≠ '-' := by
  have hdigits {ds : List Char} (hds : Digits isDecimal ds) (rest : List Char) :
      ∀ c ∈ (ds ++ rest).head?, c ≠ '+' ∧ c ≠ '-' := by
    intro c hc
    rw [head?_append_of_ne_nil _ hds.1] at hc
    exact ne_sign_of_isDecimal (hds.2 c (mem_of_mem_head? hc))
  cases h with
  | whole hds => exact hdigits hds rest
  | pointed hds hfs =>
    rw [append_assoc]
    exact hdigits hds _
  | fraction hfs =>
    rintro c ⟨⟩
    decide

lemma not_isDecimal_point (rest : List Char) :
    ∀ c ∈ ('.' :: rest).head?, ¬ isDecimal c = true := by
  rintro c ⟨⟩
  decide

lemma scan?_of_decimal (h : Decimal isDecimal cs) : (scan? cs).isSome = true := by
  obtain ⟨sign, mantissa, exponent, rfl, hsign, hmantissa, hexponent⟩ := h
  have htake := takeSign_append hsign (head?_mantissa hmantissa exponent)
  have hstop : ∀ c ∈ exponent.head?, ¬ isDecimal c = true :=
    fun c hc => (head?_exponent hexponent c hc).1
  have hscan := scanExponent?_isSome.2 hexponent
  rw [append_assoc]
  cases hmantissa with
  | whole hds =>
    simp only [scan?, htake, takeDigits_append hds.2 hstop]
    split
    case h_1 more => exact absurd rfl (head?_exponent hexponent '.' rfl).2
    case h_2 => simp [hds.1, hscan]
  | @pointed ds fs hds hfs =>
    have hpoint := takeDigits_append hds.2 (not_isDecimal_point (fs ++ exponent))
    rw [append_assoc, cons_append] at htake ⊢
    simp only [scan?, htake, hpoint, takeDigits_append hfs hstop]
    simp [hds.1, hscan]
  | @fraction fs hfs =>
    have hpoint := takeDigits_append (forall_mem_nil _) (not_isDecimal_point (fs ++ exponent))
    rw [nil_append] at hpoint
    rw [cons_append] at htake ⊢
    simp only [scan?, htake, hpoint, takeDigits_append hfs.2 hstop]
    simp [hfs.1, hscan]

lemma scan?_isSome : (scan? cs).isSome = true ↔ Decimal isDecimal cs :=
  ⟨decimal_of_scan?, scan?_of_decimal⟩

/-! ### Literals in another radix -/

lemma Radix.le (h : Radix mark radix) : radix ≤ 16 := by
  cases h <;> decide

lemma radix?_eq_some_iff : radix? mark = some radix ↔ Radix mark radix := by
  constructor
  · intro h
    rw [radix?] at h
    split_ifs at h with hx ho hb
    · exact some.inj h ▸ .hexadecimal (mem_pair.2 hx)
    · exact some.inj h ▸ .octal (mem_pair.2 ho)
    · exact some.inj h ▸ .binary (mem_pair.2 hb)
  · intro h
    cases h with
    | hexadecimal hm | octal hm | binary hm => rcases mem_pair.1 hm with rfl | rfl <;> rfl

lemma symbolValue_lt_iff : symbolValue c < 16 ↔ c.toLower ∈ symbols :=
  idxOf_lt_length_iff

lemma ascii_of_symbolValue (h : symbolValue c < 16) : c.toNat < 128 := by
  have hsymbols : ∀ d ∈ symbols, d.toNat < 128 := by simp [symbols]
  have hlower := hsymbols _ (symbolValue_lt_iff.1 h)
  by_contra hc
  have hsame : c.toLower = c := by
    rw [Char.toLower, dif_neg]
    rintro ⟨-, hle⟩
    exact hc (Nat.lt_of_le_of_lt (UInt32.le_iff_toNat_le.1 hle) (by decide))
  exact hc (hsame ▸ hlower)

lemma ascii_of_hexValue? (h : (hexValue? c).isSome = true) : c.toNat < 128 := by
  have hbound {d : Char} (hd : d.toNat < 128) (hle : c ≤ d) : c.toNat < 128 :=
    Nat.lt_of_le_of_lt (UInt32.le_iff_toNat_le.1 (Char.le_def.1 hle)) hd
  rw [hexValue?] at h
  split_ifs at h with h1 h2 h3
  · exact hbound (by decide) h1.2
  · exact hbound (by decide) h2.2
  · exact hbound (by decide) h3.2
  · cases h

lemma hexValue?_ascii : ∀ n < 128, hexValue? (Char.ofNat n) =
    if symbolValue (Char.ofNat n) < 16 then some (symbolValue (Char.ofNat n)) else none := by
  decide +kernel

lemma hexValue?_eq (c : Char) :
    hexValue? c = if symbolValue c < 16 then some (symbolValue c) else none := by
  by_cases h : c.toNat < 128
  · simpa using hexValue?_ascii c.toNat h
  · rw [if_neg (mt ascii_of_symbolValue h), ← not_isSome_iff_eq_none]
    exact mt ascii_of_hexValue? h

lemma radixDigit?_eq (hr : radix ≤ 16) (c : Char) :
    radixDigit? radix c = if symbolValue c < radix then some (symbolValue c) else none := by
  rw [radixDigit?, hexValue?_eq]
  by_cases h : symbolValue c < radix
  · rw [if_pos h, if_pos (h.trans_le hr), filter_some, if_pos (decide_eq_true h)]
  · rw [if_neg h, filter_eq_none_iff]
    split <;> simp_all

lemma radixDigit?_isSome (hr : radix ≤ 16) (c : Char) :
    (radixDigit? radix c).isSome = true ↔ symbolValue c < radix := by
  rw [radixDigit?_eq hr]
  split <;> simp_all

lemma radixValue?_eq_some_iff (hr : radix ≤ 16) (ds : List Char) :
    radixValue? radix ds = some n ↔ (∀ d ∈ ds, symbolValue d < radix) ∧
      n = Nat.ofDigits radix (ds.map symbolValue).reverse := by
  have hsome : (radixValue? radix ds).isSome = true ↔ ∀ d ∈ ds, symbolValue d < radix := by
    simp only [← radixDigit?_isSome hr, ← List.all_eq_true]
    exact Bool.coe_iff_coe.2 (readFrom_isSome 0 ds)
  have hvalue (hds : ∀ d ∈ ds, symbolValue d < radix) :
      radixValue? radix ds = some (Nat.ofDigits radix (ds.map symbolValue).reverse) := by
    have hdigit : ∀ d ∈ ds, radixDigit? radix d = some (symbolValue d) := by
      intro d hd
      rw [radixDigit?_eq hr, if_pos (hds d hd)]
    rw [Nat.ofDigits_eq_foldr, foldr_reverse, foldl_map]
    simp only [Nat.cast_id, Nat.add_comm (symbolValue _)]
    exact readFrom_eq hdigit 0
  constructor
  · intro h
    have hds := hsome.1 (isSome_of_eq_some h)
    exact ⟨hds, some.inj (h.symm.trans (hvalue hds))⟩
  · rintro ⟨hds, rfl⟩
    exact hvalue hds

lemma hexValue?_isSome (c : Char) : (hexValue? c).isSome = true ↔ symbolValue c < 16 := by
  rw [hexValue?_eq]
  split <;> simp_all

lemma radixLiteral?_eq_some_iff :
    radixLiteral? cs = some (radix, ds) ↔
      ∃ mark, cs = '0' :: mark :: ds ∧ Radix mark radix ∧ ds ≠ [] ∧
        ∀ d ∈ ds, symbolValue d < 16 := by
  constructor
  · intro h
    rw [radixLiteral?.eq_def] at h
    split at h
    case h_1 mark d ds' =>
      obtain ⟨radix', hradix, h⟩ := bind_eq_some_iff.1 h
      split at h
      case isTrue hall =>
        obtain ⟨rfl, rfl⟩ := Prod.mk.inj (some.inj h)
        refine ⟨mark, rfl, radix?_eq_some_iff.1 hradix, cons_ne_nil _ _, ?_⟩
        simpa only [List.all_eq_true, hexValue?_isSome] using hall
      case isFalse => cases h
    case h_2 => cases h
  · rintro ⟨mark, rfl, hmark, hne, hds⟩
    obtain ⟨d, ds, rfl⟩ := exists_cons_of_ne_nil hne
    have hall : ((d :: ds).all fun c => (hexValue? c).isSome) = true := by
      simpa only [List.all_eq_true, hexValue?_isSome] using hds
    rw [radixLiteral?, radix?_eq_some_iff.2 hmark, bind_eq_bind, bind_some,
      if_pos hall]
    rfl

lemma radixLiteral_iff : RadixLiteral cs n ↔
    ∃ radix ds, radixLiteral? cs = some (radix, ds) ∧ radixValue? radix ds = some n := by
  constructor
  · rintro ⟨mark, radix, ds, rfl, hmark, hne, hds, rfl⟩
    refine ⟨radix, ds, radixLiteral?_eq_some_iff.2 ⟨mark, rfl, hmark, hne, ?_⟩,
      (radixValue?_eq_some_iff hmark.le ds).2 ⟨hds, rfl⟩⟩
    exact fun d hd => (hds d hd).trans_le hmark.le
  · rintro ⟨radix, ds, hliteral, hvalue⟩
    obtain ⟨mark, rfl, hmark, hne, -⟩ := radixLiteral?_eq_some_iff.1 hliteral
    obtain ⟨hds, rfl⟩ := (radixValue?_eq_some_iff hmark.le ds).1 hvalue
    exact ⟨mark, radix, ds, rfl, hmark, hne, hds, rfl⟩

lemma scan?_of_radixLiteral? (h : radixLiteral? cs = some (radix, ds)) : scan? cs = none := by
  obtain ⟨mark, rfl, hmark, -⟩ := radixLiteral?_eq_some_iff.1 h
  cases hmark with
  | hexadecimal hm | octal hm | binary hm => rcases mem_pair.1 hm with rfl | rfl <;> rfl

/-! ### Reading -/

lemma isNaN_ofDecimal (negative : Bool) (n : Nat) (e : Int) :
    (ofDecimal negative n e).isNaN = false := by
  rw [ofDecimal]
  split_ifs
  · exact isNaN_signed negative (Nat.zero_le _)
  · exact isNaN_signed negative le_rfl
  · exact isNaN_ofRatio negative _ _

lemma infinity_iff : (∃ sign, Sign sign ∧ cs = sign ++ "Infinity".toList) ↔
    (cs = "Infinity".toList ∨ cs = "+Infinity".toList) ∨ cs = "-Infinity".toList := by
  constructor
  · rintro ⟨sign, hsign, rfl⟩
    cases hsign with
    | absent => exact .inl (.inl rfl)
    | plus => exact .inl (.inr rfl)
    | minus => exact .inr rfl
  · rintro ((rfl | rfl) | rfl)
    · exact ⟨[], .absent, rfl⟩
    · exact ⟨['+'], .plus, rfl⟩
    · exact ⟨['-'], .minus, rfl⟩

lemma numeric_iff : Numeric digit cs ↔ cs = [] ∨
    (∃ sign, Sign sign ∧ cs = sign ++ "Infinity".toList) ∨ Decimal digit cs ∨
      ∃ n, RadixLiteral cs n := by
  constructor
  · intro h
    cases h with
    | empty => exact .inl rfl
    | infinity hsign => exact .inr (.inl ⟨_, hsign, rfl⟩)
    | decimal h => exact .inr (.inr (.inl h))
    | radix h => exact .inr (.inr (.inr ⟨_, h⟩))
  · rintro (rfl | ⟨sign, hsign, rfl⟩ | h | ⟨n, h⟩)
    · exact .empty
    · exact .infinity hsign
    · exact .decimal h
    · exact .radix h

lemma isNaN_ofChars (cs : List Char) : (ofChars cs).isNaN = false ↔ Numeric isDecimal cs := by
  rw [numeric_iff, infinity_iff, ofChars]
  by_cases hempty : cs = []
  · simp [hempty, Num.isNaN]
  by_cases hplus : cs = "Infinity".toList ∨ cs = "+Infinity".toList
  · rw [if_neg hempty, if_pos hplus]
    exact iff_of_true rfl (.inr (.inl (.inl hplus)))
  by_cases hminus : cs = "-Infinity".toList
  · rw [if_neg hempty, if_neg hplus, if_pos hminus]
    exact iff_of_true rfl (.inr (.inl (.inr hminus)))
  rw [if_neg hempty, if_neg hplus, if_neg hminus, or_iff_right hempty,
    or_iff_right (not_or.2 ⟨hplus, hminus⟩), ← scan?_isSome]
  simp only [radixLiteral_iff]
  cases hradix : radixLiteral? cs with
  | none =>
    cases scan? cs with
    | none => simp [show Num.nan.isNaN = true from rfl]
    | some scan => simp [isNaN_ofFloat (isNaN_ofDecimal _ _ _), Scan.value]
  | some literal =>
    obtain ⟨radix, ds⟩ := literal
    rw [scan?_of_radixLiteral? hradix]
    cases hvalue : radixValue? radix ds with
    | none => simp [hvalue, show Num.nan.isNaN = true from rfl]
    | some n => simp [hvalue, Num.isNaN]

lemma ofChars_of_radixLiteral (h : RadixLiteral cs n) : ofChars cs = .int n := by
  obtain ⟨radix, ds, hliteral, hvalue⟩ := radixLiteral_iff.1 h
  obtain ⟨mark, rfl, -⟩ := radixLiteral?_eq_some_iff.1 hliteral
  have hword {word : List Char} (hw : word.head? ≠ some '0') : '0' :: mark :: ds ≠ word :=
    fun h => hw (h ▸ rfl)
  rw [ofChars, if_neg (hword (by decide)),
    if_neg (not_or.2 ⟨hword (by decide), hword (by decide)⟩), if_neg (hword (by decide)), hliteral]
  simp only [hvalue]

/-! ### Digits of one script -/

section Digits

variable {digit : Char → Bool} {digit' : Char → Bool}

lemma Digits.restrict (h : Digits digit cs) (hd : ∀ c ∈ cs, digit c = true → digit' c = true) :
    Digits digit' cs :=
  ⟨h.1, fun c hc => hd c hc (h.2 c hc)⟩

lemma Mantissa.restrict (h : Mantissa digit cs)
    (hd : ∀ c ∈ cs, digit c = true → digit' c = true) : Mantissa digit' cs := by
  cases h with
  | whole hds => exact .whole (hds.restrict hd)
  | pointed hds hfs =>
    rw [forall_mem_append, forall_mem_cons] at hd
    exact .pointed (hds.restrict hd.1) fun c hc => hd.2.2 c hc (hfs c hc)
  | fraction hfs => exact .fraction (hfs.restrict (forall_mem_cons.1 hd).2)

lemma Exponent.restrict (h : Exponent digit cs)
    (hd : ∀ c ∈ cs, digit c = true → digit' c = true) : Exponent digit' cs := by
  cases h with
  | absent => exact .absent
  | present hmark hsign hds =>
    rw [forall_mem_cons, forall_mem_append] at hd
    exact .present hmark hsign (hds.restrict hd.2.2)

lemma Decimal.restrict (h : Decimal digit cs) (hd : ∀ c ∈ cs, digit c = true → digit' c = true) :
    Decimal digit' cs := by
  obtain ⟨sign, mantissa, exponent, rfl, hsign, hmantissa, hexponent⟩ := h
  simp only [forall_mem_append] at hd
  exact ⟨sign, mantissa, exponent, rfl, hsign, hmantissa.restrict hd.1.2, hexponent.restrict hd.2⟩

lemma Numeric.restrict (h : Numeric digit cs) (hd : ∀ c ∈ cs, digit c = true → digit' c = true) :
    Numeric digit' cs := by
  cases h with
  | empty => exact .empty
  | infinity hsign => exact .infinity hsign
  | decimal h => exact .decimal (h.restrict hd)
  | radix h => exact .radix h

def Ascii (cs : List Char) : Prop := ∀ c ∈ cs, c.toNat < 128

lemma Ascii.append {cs' : List Char} (h : Ascii cs) (h' : Ascii cs') : Ascii (cs ++ cs') :=
  forall_mem_append.2 ⟨h, h'⟩

lemma Ascii.cons {c : Char} (hc : c.toNat < 128) (h : Ascii cs) : Ascii (c :: cs) :=
  forall_mem_cons.2 ⟨hc, h⟩

lemma ascii_of_isDigit (h : ∀ c ∈ cs, c.isDigit = true) : Ascii cs :=
  fun c hc => Nat.lt_of_le_of_lt (isDigit_iff.1 (h c hc)).2 (by decide)

lemma Sign.ascii (h : Sign cs) : Ascii cs := by
  cases h <;> simp [Ascii]

lemma Mantissa.ascii (h : Mantissa Char.isDigit cs) : Ascii cs := by
  cases h with
  | whole hds => exact ascii_of_isDigit hds.2
  | pointed hds hfs =>
    exact (ascii_of_isDigit hds.2).append (.cons (by decide) (ascii_of_isDigit hfs))
  | fraction hfs => exact .cons (by decide) (ascii_of_isDigit hfs.2)

lemma Exponent.ascii (h : Exponent Char.isDigit cs) : Ascii cs := by
  cases h with
  | absent => exact forall_mem_nil _
  | present hmark hsign hds =>
    refine .cons ?_ (hsign.ascii.append (ascii_of_isDigit hds.2))
    rcases mem_pair.1 hmark with rfl | rfl <;> decide

lemma Radix.ascii (h : Radix mark radix) : mark.toNat < 128 := by
  cases h with
  | hexadecimal hm | octal hm | binary hm => rcases mem_pair.1 hm with rfl | rfl <;> decide

lemma Numeric.ascii (h : Numeric Char.isDigit cs) : Ascii cs := by
  cases h with
  | empty => exact forall_mem_nil _
  | infinity hsign => exact hsign.ascii.append (by simp [Ascii])
  | decimal h =>
    obtain ⟨sign, mantissa, exponent, rfl, hsign, hmantissa, hexponent⟩ := h
    exact (hsign.ascii.append hmantissa.ascii).append hexponent.ascii
  | radix h =>
    obtain ⟨mark, radix, ds, rfl, hmark, -, hds, -⟩ := h
    refine .cons (by decide) (.cons hmark.ascii fun d hd => ?_)
    exact ascii_of_symbolValue ((hds d hd).trans_le hmark.le)

end Digits

end NumericText

end Overload
