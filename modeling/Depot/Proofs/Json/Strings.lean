import Depot.Json.Parser
import Depot.Json.Printer
import Mathlib.Data.List.Basic
import Mathlib.Tactic.IntervalCases

/-!
Strings written as JSON and read again. Each code is read back from its escape, with one
exception: the escapes of a high surrogate and of a low one directly after it are those of the
character which the two encode, and are read as that character. No code is written with a quote
at its start, so the closing quote is the first one, and all that is written is visible ASCII.
-/
namespace Depot

abbrev Text.IsHigh (n : Nat) : Prop := 0xD800 ≤ n ∧ n < 0xDC00

abbrev Text.IsLow (n : Nat) : Prop := 0xDC00 ≤ n ∧ n < 0xE000

/-- No high surrogate stands directly before a low one. -/
def Text.Unpaired (units : List Nat) : Prop := units.IsChain fun n m => ¬ (IsHigh n ∧ IsLow m)

def Text.joined : List Nat → List Nat
  | [] => []
  | [n] => [n]
  | n :: m :: rest =>
    if IsHigh n ∧ IsLow m then
      (0x10000 + (n - 0xD800) * 0x400 + (m - 0xDC00)) :: joined rest
    else n :: joined (m :: rest)

/-- Made of codes, and kept as a text if all of them are characters. -/
structure Text.Loose.Proper (s : Text.Loose) : Prop where
  codes : ∀ n ∈ s.units, n < 0x110000
  normal : ofCodes s.units = s

namespace Text

/-- The code of a character is not that of half a pair. -/
theorem toNat_bounds (c : Char) : c.toNat < 0xD800 ∨ (0xDFFF < c.toNat ∧ c.toNat < 0x110000) :=
  c.valid

theorem toNat_ofNat {n : Nat} (hvalid : n.isValidChar) : (Char.ofNat n).toNat = n := by
  rw [Char.ofNat, dif_pos hvalid]
  rfl

theorem length_joined_le (units : List Nat) : (joined units).length ≤ units.length := by
  induction units using joined.induct with
  | case1 => exact le_rfl
  | case2 n => exact le_rfl
  | case3 n m rest hpair ih =>
    rw [joined, if_pos hpair]
    simp only [List.length_cons]
    omega
  | case4 n m rest hpair ih =>
    rw [joined, if_neg hpair]
    simp only [List.length_cons] at ih ⊢
    omega

/-- Nothing is made of codes without pairs, and of others something. -/
theorem joined_eq_iff (units : List Nat) : joined units = units ↔ Unpaired units := by
  unfold Unpaired
  induction units using joined.induct with
  | case1 => simp [joined]
  | case2 n => simp [joined]
  | case3 n m rest hpair ih =>
    have hshorter := length_joined_le rest
    rw [joined, if_pos hpair, List.isChain_cons_cons]
    refine ⟨fun heq => ?_, fun hchain => absurd hpair hchain.1⟩
    have hlength := congrArg List.length heq
    simp only [List.length_cons] at hlength
    omega
  | case4 n m rest hpair ih =>
    rw [joined, if_neg hpair, List.isChain_cons_cons, ← ih]
    simp [hpair]

theorem unpaired_toNat (cs : List Char) : Unpaired (cs.map Char.toNat) := by
  induction cs with
  | nil => exact .nil
  | cons c cs ih =>
    have hbounds := toNat_bounds c
    cases cs with
    | nil => exact .singleton _
    | cons d cs => exact .cons_cons (by omega) ih

namespace Loose

/-- A text is read back from the codes of its characters. -/
theorem ofCodes_toNat (s : String) : ofCodes (s.toList.map Char.toNat) = .plain s := by
  have hvalid : (s.toList.map Char.toNat).all Nat.isValidChar = true := by
    simp only [List.all_map, List.all_eq_true, Function.comp_apply]
    exact fun c _ => by simpa [Nat.isValidChar] using toNat_bounds c
  have hchars : (s.toList.map Char.toNat).map Char.ofNat = s.toList := by
    rw [List.map_map]
    conv_rhs => rw [← List.map_id s.toList]
    exact List.map_congr_left fun c _ => Char.ofNat_toNat c
  simp only [ofCodes, plainText?, hvalid, if_true, hchars, String.ofList_toList]

theorem proper_plain (s : String) : (plain s).Proper where
  codes n hn := by
    obtain ⟨c, -, rfl⟩ := List.mem_map.mp hn
    have hbounds := toNat_bounds c
    omega
  normal := ofCodes_toNat s

theorem units_ofCodes (units : List Nat) : (ofCodes units).units = units := by
  unfold ofCodes plainText?
  by_cases hvalid : units.all Nat.isValidChar = true
  · rw [if_pos hvalid]
    simp only [Loose.units, String.toList_ofList, List.map_map]
    conv_rhs => rw [← List.map_id units]
    refine List.map_congr_left fun n hn => ?_
    exact toNat_ofNat (by simpa using List.all_eq_true.mp hvalid n hn)
  · rw [if_neg hvalid]
    rfl

end Loose

end Text

namespace Json

open Text

variable {n m : Nat} {units : List Nat} {rest : List Char}

theorem hexValue?_digitChar {d : Nat} (hd : d < 16) :
    Bytes.hexValue? (Nat.digitChar d) = some d := by
  interval_cases d <;> rfl

theorem takeUnit?_hexDigits (hn : n < 0x10000) (rest : List Char) :
    takeUnit? (Text.hexDigits 4 n ++ rest) = some (n, rest) := by
  have hw := hexValue?_digitChar (d := n / 16 / 16 / 16 % 16) (by omega)
  have hx := hexValue?_digitChar (d := n / 16 / 16 % 16) (by omega)
  have hy := hexValue?_digitChar (d := n / 16 % 16) (by omega)
  have hz := hexValue?_digitChar (d := n % 16) (by omega)
  have hn' : 4096 * (n / 16 / 16 / 16 % 16) + 256 * (n / 16 / 16 % 16) + 16 * (n / 16 % 16)
      + n % 16 = n := by omega
  simp only [Text.hexDigits, List.nil_append, List.cons_append, takeUnit?, hw, hx, hy, hz]
  simp [hn']

/-- What follows does not begin with the escape of a low surrogate. -/
def Apart (rest : List Char) : Prop :=
  ∀ low, rest = '\\' :: 'u' :: low → ∃ m after, takeUnit? low = some (m, after) ∧ ¬ IsLow m

/-- An escaped unit is read alone unless it is the first half of what goes on after it. -/
theorem takeCode?_escapeUnit (hn : n < 0x10000) (hrest : IsHigh n → Apart rest) :
    takeCode? (escapeUnit n ++ rest) = some (n, rest) := by
  have hunit := takeUnit?_hexDigits hn rest
  simp only [escapeUnit, List.cons_append, takeCode?, hunit]
  simp only [Option.bind_eq_bind, Option.bind_some]
  split
  · next low =>
    split
    · next hhigh =>
      obtain ⟨m, after, hlow, hm⟩ := hrest hhigh low rfl
      simp only [hlow, Option.bind_some, if_neg hm]
      rfl
    · rfl
  · rfl

/-- Two units in a row are read as one character. -/
theorem takeCode?_pair (hn : IsHigh n) (hm : IsLow m) (rest : List Char) :
    takeCode? (escapeUnit n ++ (escapeUnit m ++ rest)) =
      some (0x10000 + (n - 0xD800) * 0x400 + (m - 0xDC00), rest) := by
  have hfirst := takeUnit?_hexDigits (n := n) (by omega) (escapeUnit m ++ rest)
  have hsecond := takeUnit?_hexDigits (n := m) (by omega) rest
  simp only [escapeUnit, List.cons_append] at hfirst
  simp only [escapeUnit, List.cons_append, takeCode?, hfirst]
  simp only [Option.bind_eq_bind, Option.bind_some, if_pos hn, hsecond, if_pos hm]
  rfl

theorem takeCode?_escapeChar (c : Char) (rest : List Char) :
    takeCode? (escapeChar c ++ rest) = some (c.toNat, rest) := by
  have hbounds := toNat_bounds c
  unfold escapeChar
  split
  · next h => subst h; rfl
  split
  · next h => subst h; rfl
  split
  · next h => subst h; rfl
  split
  · next h => subst h; rfl
  split
  · next h => subst h; rfl
  split
  · next h => subst h; rfl
  split
  · next h => subst h; rfl
  split
  · next hquote hslash _ _ _ _ _ hplain =>
    simp only [List.cons_append, List.nil_append]
    rw [takeCode?.eq_def]
    simp [hslash]
    omega
  split
  · next hsmall => exact takeCode?_escapeUnit hsmall fun hhigh => by omega
  · next hlarge =>
    rw [List.append_assoc, takeCode?_pair (by omega) (by omega)]
    refine congrArg (fun n => some (n, rest)) ?_
    omega

def Visible (c : Char) : Prop := 0x20 ≤ c.toNat ∧ c.toNat < 0x7F

instance (c : Char) : Decidable (Visible c) := inferInstanceAs (Decidable (_ ∧ _))

theorem visible_escapeUnit (n : Nat) : ∀ c ∈ escapeUnit n, Visible c := by
  have hdigit : ∀ d < 16, Visible (Nat.digitChar d) := by decide
  have hdigits : ∀ width n, ∀ c ∈ Text.hexDigits width n, Visible c := by
    intro width
    induction width with
    | zero => simp [Text.hexDigits]
    | succ width ih =>
      intro n c hc
      rcases List.mem_append.mp hc with hc | hc
      · exact ih _ c hc
      · rw [List.mem_singleton.mp hc]
        exact hdigit _ (Nat.mod_lt n (by decide))
  intro c hc
  rcases List.mem_cons.mp hc with rfl | hc
  · decide
  rcases List.mem_cons.mp hc with rfl | hc
  · decide
  exact hdigits 4 n c hc

/-- How a code may be written: as a character itself, by a letter after a backslash, or by its
units. -/
inductive Escape (n : Nat) : List Char → Prop
  | itself (d : Char) (hvisible : Visible d) (hquote : d ≠ '"') (hslash : d ≠ '\\') : Escape n [d]
  | short (d : Char) (hvisible : Visible d) (hletter : d ≠ 'u') : Escape n ['\\', d]
  | unit (hsmall : n < 0x10000) : Escape n (escapeUnit n)
  | pair (high low : Nat) (hhigh : IsHigh high) : Escape n (escapeUnit high ++ escapeUnit low)

theorem escape_escapeChar (c : Char) : Escape c.toNat (escapeChar c) := by
  have hbounds := toNat_bounds c
  unfold escapeChar
  split
  · exact .short _ (by decide) (by decide)
  split
  · exact .short _ (by decide) (by decide)
  split
  · exact .short _ (by decide) (by decide)
  split
  · exact .short _ (by decide) (by decide)
  split
  · exact .short _ (by decide) (by decide)
  split
  · exact .short _ (by decide) (by decide)
  split
  · exact .short _ (by decide) (by decide)
  split
  · next hquote hslash _ _ _ _ _ hvisible => exact .itself c hvisible hquote hslash
  split
  · next hsmall => exact .unit hsmall
  · exact .pair _ _ ⟨by omega, by omega⟩

theorem escape_escapeCode (hn : n < 0x110000) : Escape n (escapeCode n) := by
  unfold escapeCode
  split
  · next hvalid =>
    have hescape := escape_escapeChar (Char.ofNat n)
    rwa [toNat_ofNat hvalid] at hescape
  · next hvalid =>
    simp only [Nat.isValidChar] at hvalid
    exact .unit (by omega)

theorem takeCode?_escapeCode (hn : n < 0x110000) (hrest : IsHigh n → Apart rest) :
    takeCode? (escapeCode n ++ rest) = some (n, rest) := by
  unfold escapeCode
  split
  · next hvalid =>
    rw [takeCode?_escapeChar, toNat_ofNat hvalid]
  · next hvalid =>
    have hsmall : n < 0x10000 := by
      simp only [Nat.isValidChar] at hvalid
      omega
    exact takeCode?_escapeUnit hsmall hrest

theorem apart_quote (rest : List Char) : Apart ('"' :: rest) := by
  intro low hlow
  exact absurd (List.cons.inj hlow).1 (by decide)

/-- Only a low surrogate is written with the escape of one at its start. -/
theorem apart_escapeCode (hn : n < 0x110000) (hlow : ¬ IsLow n) (rest : List Char) :
    Apart (escapeCode n ++ rest) := by
  have hescape := escape_escapeCode hn
  generalize escapeCode n = written at hescape ⊢
  intro low heq
  cases hescape with
  | itself d _ _ hslash => exact absurd (List.cons.inj heq).1 hslash
  | short d _ hletter => exact absurd (List.cons.inj (List.cons.inj heq).2).1 hletter
  | unit hsmall =>
    simp only [escapeUnit, List.cons_append, List.cons.injEq, true_and] at heq
    exact ⟨n, rest, by rw [← heq, takeUnit?_hexDigits hsmall], hlow⟩
  | pair high second hhigh =>
    simp only [escapeUnit, List.cons_append, List.append_assoc, List.cons.injEq, true_and] at heq
    exact ⟨high, _, by rw [← heq, takeUnit?_hexDigits (by omega)], by omega⟩

/-- No code is written with a quote at its start. -/
theorem exists_escapeCode (hn : n < 0x110000) :
    ∃ first rest, escapeCode n = first :: rest ∧ first ≠ '"' := by
  have hescape := escape_escapeCode hn
  generalize escapeCode n = written at hescape ⊢
  cases hescape with
  | itself d _ hquote => exact ⟨_, _, rfl, hquote⟩
  | short d => exact ⟨_, _, rfl, by decide⟩
  | unit => exact ⟨_, _, rfl, by decide⟩
  | pair high low => exact ⟨_, _, rfl, by decide⟩

/-- One code is read, then the others. -/
theorem takeString?_step {cs : List Char} {first : Char} {others : List Char} {fuel : Nat}
    (hcs : cs = first :: others) (hfirst : first ≠ '"') (hcode : takeCode? cs = some (n, rest)) :
    takeString? (fuel + 1) cs =
      (takeString? fuel rest).map fun found => (n :: found.1, found.2) := by
  subst hcs
  rw [takeString?.eq_3 _ _ (by simp [hfirst]), hcode]
  cases htail : takeString? fuel rest <;> simp [htail]

theorem takeString?_escapeCode {fuel : Nat} (hn : n < 0x110000) (hnext : IsHigh n → Apart rest) :
    takeString? (fuel + 1) (escapeCode n ++ rest) =
      (takeString? fuel rest).map fun found => (n :: found.1, found.2) := by
  obtain ⟨first, others, hwritten, hfirst⟩ := exists_escapeCode hn
  have hcode := takeCode?_escapeCode hn hnext
  exact takeString?_step (by rw [hwritten, List.cons_append]) hfirst hcode

/-- Half of a pair is no character, so that its own escape is written. -/
theorem escapeCode_surrogate (hlow : 0xD800 ≤ n) (hhigh : n < 0xE000) :
    escapeCode n = escapeUnit n := by
  rw [escapeCode, if_neg]
  simp only [Nat.isValidChar]
  omega

theorem takeString?_written (hunits : ∀ n ∈ units, n < 0x110000) (rest : List Char) {fuel : Nat}
    (hfuel : units.length < fuel) :
    takeString? fuel (units.flatMap escapeCode ++ '"' :: rest) = some (joined units, rest) := by
  induction units using joined.induct generalizing fuel with
  | case1 =>
    obtain ⟨fuel, rfl⟩ := Nat.exists_eq_succ_of_ne_zero (by omega : fuel ≠ 0)
    rfl
  | case2 n =>
    obtain ⟨fuel, rfl⟩ : ∃ k, fuel = k + 2 := ⟨fuel - 2, by simp at hfuel; omega⟩
    simp only [List.flatMap_cons, List.flatMap_nil, List.append_nil]
    rw [takeString?_escapeCode (hunits n (by simp)) fun _ => apart_quote rest]
    rfl
  | case3 n m units hpair ih =>
    obtain ⟨fuel, rfl⟩ := Nat.exists_eq_succ_of_ne_zero (by omega : fuel ≠ 0)
    have hlength : units.length < fuel := by
      simp only [List.length_cons] at hfuel
      omega
    have hcode := takeCode?_pair hpair.1 hpair.2 (units.flatMap escapeCode ++ '"' :: rest)
    simp only [List.flatMap_cons, List.append_assoc,
      escapeCode_surrogate (n := n) (by omega) (by omega),
      escapeCode_surrogate (n := m) (by omega) (by omega)]
    have hwritten : escapeUnit n = '\\' :: 'u' :: hexDigits 4 n := rfl
    rw [takeString?_step (by rw [hwritten, List.cons_append]) (by decide) hcode,
      ih (fun k hk => hunits k (by simp [hk])) hlength, joined, if_pos hpair]
    rfl
  | case4 n m units hpair ih =>
    obtain ⟨fuel, rfl⟩ := Nat.exists_eq_succ_of_ne_zero (by omega : fuel ≠ 0)
    have hlength : (m :: units).length < fuel := by
      simp only [List.length_cons] at hfuel ⊢
      omega
    have hnext : IsHigh n → Apart ((m :: units).flatMap escapeCode ++ '"' :: rest) := by
      intro hhigh
      rw [List.flatMap_cons, List.append_assoc]
      exact apart_escapeCode (hunits m (by simp)) (fun hlow => hpair ⟨hhigh, hlow⟩) _
    rw [List.flatMap_cons, List.append_assoc, takeString?_escapeCode (hunits n (by simp)) hnext,
      ih (fun k hk => hunits k (List.mem_cons_of_mem n hk)) hlength, joined, if_neg hpair]
    rfl

theorem length_le_written (hunits : ∀ n ∈ units, n < 0x110000) :
    units.length ≤ (units.flatMap escapeCode).length := by
  induction units with
  | nil => simp
  | cons n units ih =>
    obtain ⟨first, others, hwritten, -⟩ := exists_escapeCode (hunits n (by simp))
    have hrest := ih fun k hk => hunits k (List.mem_cons_of_mem n hk)
    rw [List.flatMap_cons, hwritten, List.length_append, List.length_cons, List.length_cons]
    omega

/-- A quoted string ends where it was written to end. -/
theorem takeString?_codeChars (hunits : ∀ n ∈ units, n < 0x110000) (rest : List Char) :
    takeString? ((units.flatMap escapeCode ++ '"' :: rest).length + 1)
      (units.flatMap escapeCode ++ '"' :: rest) = some (joined units, rest) := by
  apply takeString?_written hunits
  have hlength := length_le_written hunits
  rw [List.length_append]
  omega

theorem codeChars_append (units : List Nat) (rest : List Char) :
    codeChars units ++ rest = '"' :: (units.flatMap escapeCode ++ '"' :: rest) := by
  simp [codeChars]

/-- A text is written as the codes of its characters are. -/
theorem stringChars_eq (cs : List Char) : stringChars cs = codeChars (cs.map Char.toNat) := by
  have hescape : ∀ c : Char, escapeCode c.toNat = escapeChar c := by
    intro c
    have hvalid : c.toNat.isValidChar := c.valid
    rw [escapeCode, if_pos hvalid, Char.ofNat_toNat]
  simp only [stringChars, codeChars, List.flatMap_map, hescape]

/-- No control and nothing beyond ASCII stands in a string. -/
theorem visible_escapeCode (hn : n < 0x110000) : ∀ d ∈ escapeCode n, Visible d := by
  have hescape := escape_escapeCode hn
  generalize escapeCode n = written at hescape ⊢
  intro c hc
  cases hescape with
  | itself d hvisible =>
    rw [List.mem_singleton.mp hc]
    exact hvisible
  | short d hvisible =>
    rcases List.mem_pair.mp hc with rfl | rfl
    · decide
    · exact hvisible
  | unit => exact visible_escapeUnit n c hc
  | pair high low =>
    exact (List.mem_append.mp hc).elim (visible_escapeUnit high c) (visible_escapeUnit low c)

theorem visible_codeChars (hunits : ∀ n ∈ units, n < 0x110000) :
    ∀ d ∈ codeChars units, Visible d := by
  intro d hd
  simp only [codeChars, List.cons_append, List.mem_cons, List.mem_append, List.mem_flatMap,
    List.not_mem_nil, or_false] at hd
  rcases hd with rfl | ⟨n, hn, hd⟩ | rfl
  · decide
  · exact visible_escapeCode (hunits n hn) d hd
  · decide

theorem stringChars_append (s : String) (rest : List Char) :
    stringChars s.toList ++ rest =
      '"' :: ((s.toList.map Char.toNat).flatMap escapeCode ++ '"' :: rest) := by
  rw [stringChars_eq, codeChars_append]

theorem chars_ofLoose (s : Text.Loose) : chars (ofLoose s) = codeChars s.units := by
  cases s with
  | plain s => exact stringChars_eq s.toList
  | codes units => rfl

theorem takeString?_name (s : String) (rest : List Char) :
    takeString? (((s.toList.map Char.toNat).flatMap escapeCode ++ '"' :: rest).length + 1)
        ((s.toList.map Char.toNat).flatMap escapeCode ++ '"' :: rest) =
      some (s.toList.map Char.toNat, rest) := by
  have hunits : ∀ n ∈ s.toList.map Char.toNat, n < 0x110000 := (Text.Loose.proper_plain s).codes
  rw [takeString?_codeChars hunits, (joined_eq_iff _).mpr (unpaired_toNat s.toList)]

theorem visible_stringChars (s : String) : ∀ d ∈ stringChars s.toList, Visible d := by
  rw [stringChars_eq]
  exact visible_codeChars (Text.Loose.proper_plain s).codes

/-- What a value is when it is read: in a string pairs are joined. -/
def decoded : Json → Json
  | .codes units => ofCodes (joined units)
  | v => v

theorem ofCodes_toNat (s : String) : ofCodes (s.toList.map Char.toNat) = .text s := by
  rw [ofCodes, Text.Loose.ofCodes_toNat, ofLoose]

theorem ofCodes_joined (s : Text.Loose) : ofCodes (joined s.units) = (ofLoose s).decoded := by
  cases s with
  | plain s =>
    have hjoined := (joined_eq_iff _).mpr (unpaired_toNat s.toList)
    simp only [Text.Loose.units, hjoined, ofCodes_toNat, ofLoose, decoded]
  | codes units => rfl

theorem ofLoose_injective : Function.Injective ofLoose := by
  rintro (s | units) (t | others) h
  · exact congrArg _ (Json.text.inj h)
  · cases h
  · cases h
  · exact congrArg _ (Json.codes.inj h)

theorem ofLoose_ne_int (s : Text.Loose) (n : Int) : ofLoose s ≠ .int n := by
  cases s <;> exact Json.noConfusion

/-- Strings without pairs, and no others, are read as what they are. -/
theorem decoded_eq_iff {s : Text.Loose} (hs : s.Proper) :
    (ofLoose s).decoded = ofLoose s ↔ Unpaired s.units := by
  rw [← ofCodes_joined, ← joined_eq_iff, ofCodes, ofLoose_injective.eq_iff]
  constructor
  · intro h
    rw [← Text.Loose.units_ofCodes (joined s.units), h]
  · intro h
    rw [h, hs.normal]

end Json

end Depot
