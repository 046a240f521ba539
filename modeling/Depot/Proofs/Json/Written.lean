import Depot.Text.Codec
import Depot.Proofs.OrderedMap
import Depot.Proofs.Json.Strings
import Mathlib.Data.List.Nodup

/-!
Strings and whole numbers under names survive being written as JSON and read again, but for the
surrogate pairs in strings, which are joined; and any text survives being stored as bytes. A
number ends where its digits end.
-/
namespace Depot

theorem toList_loop_eq (b : ByteArray) (i : Nat) (r : List UInt8) :
    ByteArray.toList.loop b i r = r.reverse ++ b.data.toList.drop i := by
  induction hn : b.size - i generalizing i r with
  | zero =>
    have hle : b.data.toList.length ≤ i := by
      rw [Array.length_toList]
      exact Nat.sub_eq_zero_iff_le.mp hn
    rw [ByteArray.toList.loop, if_neg (by omega), List.drop_eq_nil_of_le hle, List.append_nil]
  | succ n ih =>
    have hlt : i < b.data.toList.length := by
      rw [Array.length_toList]
      exact Nat.lt_of_sub_eq_succ hn
    have hget : b.get! i = b.data.toList[i] := getElem!_pos b.data i (by simpa using hlt)
    rw [ByteArray.toList.loop, if_pos (by omega), ih (i + 1) _ (by omega), hget,
      List.drop_eq_getElem_cons hlt]
    simp

theorem toList_eq (b : ByteArray) : b.toList = b.data.toList := by
  rw [ByteArray.toList, toList_loop_eq]
  simp

/-- Any text is read back from its bytes. -/
theorem Text.Codec.decodeUtf8?_utf8 (s : String) : decodeUtf8? (Bytes.utf8 s) = some s := by
  have hbytes : (⟨(Bytes.utf8 s).toArray⟩ : ByteArray) = s.toUTF8 := by
    rw [Bytes.utf8, toList_eq]
  rw [decodeUtf8?, hbytes]
  exact dif_pos s.isValidUTF8

namespace Json

theorem takeValue_codes {units : List Nat} (hunits : ∀ n ∈ units, n < 0x110000) (depth : Nat)
    (rest : List Char) (fuel : Nat) :
    takeValue (fuel + 1) depth (codeChars units ++ rest) =
      .ok (ofCodes (Text.joined units), rest) := by
  rw [codeChars_append, takeValue, takeString?_codeChars hunits]
  rfl

def Ends (after : List Char) : Prop := ∃ c rest, after = c :: rest ∧ (c = ',' ∨ c = '\x7d')

theorem natOfDigits_toDigits (n : Nat) : Decimal.natOfDigits (Nat.toDigits 10 n) = n :=
  Nat.ofDigitChars_toDigits (by decide) (by decide)

/-- No number of several digits is written with a zero at its start. -/
theorem toDigits_cases (n : Nat) :
    ∃ c rest, Nat.toDigits 10 n = c :: rest ∧ c.isDigit = true ∧ (c = '0' → rest = []) := by
  induction n using Nat.strong_induction_on with
  | h n ih =>
    by_cases hn : n < 10
    · exact ⟨_, [], Nat.toDigits_of_lt_base hn, by interval_cases n <;> decide, fun _ => rfl⟩
    · obtain ⟨c, rest, hdigits, hc, hzero⟩ := ih (n / 10) (by omega)
      rw [Nat.toDigits_of_base_le (by decide) (by omega), hdigits]
      refine ⟨c, rest ++ [(n % 10).digitChar], rfl, hc, fun h0 => ?_⟩
      -- A zero at the start would be all that is left of the number without its last digit.
      have hvalue := natOfDigits_toDigits (n / 10)
      rw [hdigits, h0, hzero h0] at hvalue
      have hnone : n / 10 = 0 := hvalue.symm
      omega

theorem takeLiteral_toDigits (n : Nat) {after : List Char} (hafter : Ends after) :
    Decimal.takeLiteral (Nat.toDigits 10 n ++ after) =
      (⟨Nat.toDigits 10 n, none, none⟩, after) := by
  have hdigits : ∀ c ∈ Nat.toDigits 10 n, c.isDigit = true :=
    fun c => Nat.isDigit_of_mem_toDigits (by decide) (by decide)
  obtain ⟨c, rest, rfl, hc⟩ := hafter
  have hwhole : (Nat.toDigits 10 n ++ c :: rest).takeWhile Char.isDigit = Nat.toDigits 10 n := by
    rw [List.takeWhile_append_of_pos hdigits]
    rcases hc with rfl | rfl <;> simp
  have hrest : (Nat.toDigits 10 n ++ c :: rest).dropWhile Char.isDigit = c :: rest := by
    rw [List.dropWhile_append_of_pos hdigits]
    rcases hc with rfl | rfl <;> rfl
  rcases hc with rfl | rfl <;> simp [Decimal.takeLiteral, hwhole, hrest, Decimal.takeExponent]

theorem takeNumber?_toDigits {m : Nat} (hlimit : (Nat.toDigits 10 m).length ≤ digitLimit)
    {after : List Char} (hafter : Ends after) :
    takeNumber? (Nat.toDigits 10 m ++ after) = some (.int m, after) ∧
      takeNumber? ('-' :: (Nat.toDigits 10 m ++ after)) = some (.int (-m), after) := by
  have hliteral := takeLiteral_toDigits m hafter
  have hvalue := natOfDigits_toDigits m
  obtain ⟨c, rest, hdigits, hc, hzero⟩ := toDigits_cases m
  have hminus : c ≠ '-' := by
    rintro rfl
    exact absurd hc (by decide)
  rw [hdigits] at hliteral hvalue hlimit ⊢
  rw [List.cons_append] at hliteral ⊢
  -- The reader looks for a zero before other digits.
  cases rest with
  | nil =>
    rw [List.nil_append] at hliteral ⊢
    constructor <;> simp [takeNumber?, hminus, hliteral, hvalue, digitLimit]
  | cons d rest =>
    have hc0 : c ≠ '0' := fun h0 => List.cons_ne_nil d rest (hzero h0)
    rw [List.cons_append] at hliteral ⊢
    constructor <;> simpa [takeNumber?, hminus, hliteral, hvalue, hc0] using hlimit

theorem intChars_cases (n : Int) :
    ∃ c rest, intChars n = c :: rest ∧ (c = '-' ∨ c.isDigit = true) := by
  unfold intChars
  split
  · exact ⟨_, _, rfl, Or.inl rfl⟩
  · obtain ⟨c, rest, hdigits, hc, -⟩ := toDigits_cases n.natAbs
    exact ⟨c, rest, hdigits, Or.inr hc⟩

/-- A number is none of the words, and is read up to what ends it. -/
theorem takeScalar?_intChars {n : Int} (hwritable : writable (.int n) = true) {after : List Char}
    (hafter : Ends after) : takeScalar? (intChars n ++ after) = some (.int n, after) := by
  have hlimit : (Nat.toDigits 10 n.natAbs).length ≤ digitLimit := by
    simpa [writable] using hwritable
  obtain ⟨hplus, hminus⟩ := takeNumber?_toDigits hlimit hafter
  obtain ⟨c, rest, hdigits, hc, -⟩ := toDigits_cases n.natAbs
  have hother : ∀ w : Char, w.isDigit = false → w ≠ c := by
    rintro w hw rfl
    rw [hc] at hw
    cases hw
  have hI := hother 'I' rfl
  unfold intChars
  split
  · have hvalue : -(n.natAbs : Int) = n := by omega
    rw [hdigits, hvalue] at hminus
    rw [hdigits]
    simpa [takeScalar?, takeWord?, List.isPrefixOf, hI] using hminus
  · have hvalue : (n.natAbs : Int) = n := by omega
    rw [hdigits, hvalue] at hplus
    rw [hdigits]
    simpa [takeScalar?, takeWord?, List.isPrefixOf, hI, hother 'n' rfl, hother 't' rfl,
      hother 'f' rfl, hother 'N' rfl, hother '-' rfl] using hplus

theorem takeValue_int {n : Int} (hwritable : writable (.int n) = true) (depth : Nat)
    {after : List Char} (hafter : Ends after) (fuel : Nat) :
    takeValue (fuel + 1) depth (intChars n ++ after) = .ok (.int n, after) := by
  have hscalar := takeScalar?_intChars hwritable hafter
  obtain ⟨c, rest, hchars, hc⟩ := intChars_cases n
  have hother : ∀ w : Char, w ≠ '-' → w.isDigit = false → c ≠ w := by
    rintro w hminus hdigit rfl
    rcases hc with rfl | hc
    · exact hminus rfl
    · rw [hc] at hdigit
      cases hdigit
  rw [hchars, List.cons_append] at hscalar ⊢
  unfold takeValue
  split
  · next h => exact absurd (List.cons.inj h).1 (hother _ (by decide) rfl)
  · next h => exact absurd (List.cons.inj h).1 (hother _ (by decide) rfl)
  · next h => exact absurd (List.cons.inj h).1 (hother _ (by decide) rfl)
  · rw [hscalar]
    rfl

inductive Plain : Json → Prop
  | string (s : Text.Loose) (hs : s.Proper) : Plain (ofLoose s)
  | int (n : Int) : Plain (.int n)

section Plain

variable {v : Json}

theorem takeValue_plain (hplain : v.Plain) (hwritable : v.writable = true) (depth : Nat)
    {after : List Char} (hafter : Ends after) (fuel : Nat) :
    takeValue (fuel + 1) depth (chars v ++ after) = .ok (v.decoded, after) := by
  cases hplain with
  | string s hs => rw [chars_ofLoose, takeValue_codes hs.codes, ofCodes_joined]
  | int n => exact takeValue_int hwritable depth hafter fuel

theorem skipBlanks_plain (hplain : v.Plain) (rest : List Char) :
    skipBlanks (chars v ++ rest) = chars v ++ rest := by
  cases hplain with
  | string s =>
    rw [chars_ofLoose, codeChars_append]
    rfl
  | int n =>
    obtain ⟨c, others, hchars, hc⟩ := intChars_cases n
    have hblank : isBlank c = false := by
      rcases hc with rfl | hc
      · rfl
      · rw [isBlank]
        simp only [Bool.or_eq_false_iff, decide_eq_false_iff_not]
        refine ⟨⟨⟨?_, ?_⟩, ?_⟩, ?_⟩ <;> (rintro rfl; cases hc)
    rw [chars, hchars, List.cons_append, skipBlanks, List.dropWhile_cons, hblank]
    rfl

end Plain

section Members

variable {entries : List (String × Json)}

def decodedMembers (entries : List (String × Json)) : List (String × Json) :=
  entries.map fun e => (e.1, e.2.decoded)

def codedMembers (entries : List (String × Json)) : List (List Nat × Json) :=
  entries.map fun e => (e.1.toList.map Char.toNat, e.2)

theorem names_decodedMembers (entries : List (String × Json)) :
    (decodedMembers entries).map Prod.fst = entries.map Prod.fst := by
  simp [decodedMembers]

/-- One member, and what comes after it. -/
theorem takeMembers_member (name : String) {v : Json} (hplain : v.Plain)
    (hwritable : v.writable = true) (fuel depth : Nat) (after : List Char) (hafter : Ends after) :
    takeMembers (fuel + 2) depth
        (stringChars name.toList ++ ':' :: ' ' :: (chars v ++ after)) =
      match skipBlanks after with
      | ',' :: rest => do
        let (more, rest) ← takeMembers (fuel + 1) depth (skipBlanks rest)
        return ((name.toList.map Char.toNat, v.decoded) :: more, rest)
      | '\x7d' :: rest => return ([(name.toList.map Char.toNat, v.decoded)], rest)
      | _ => .error .malformed := by
  have hvalue : takeValue (fuel + 1) depth (skipBlanks (' ' :: (chars v ++ after))) =
      .ok (v.decoded, after) := by
    change takeValue (fuel + 1) depth (skipBlanks (chars v ++ after)) = _
    rw [skipBlanks_plain hplain, takeValue_plain hplain hwritable depth hafter]
  rw [stringChars_append, takeMembers, takeString?_name]
  change (takeValue (fuel + 1) depth (skipBlanks (' ' :: (chars v ++ after))) >>= _ :
    Except Flaw _) = _
  rw [hvalue]
  rfl

/-- Members begin with the quote of a name. -/
theorem exists_quote (e : String × Json) (entries : List (String × Json)) :
    ∃ tail, memberChars (e :: entries) = '"' :: tail := by
  cases entries with
  | nil => exact ⟨_, rfl⟩
  | cons next entries => exact ⟨_, rfl⟩

theorem skipBlanks_members (e : String × Json) (entries : List (String × Json))
    (rest : List Char) :
    skipBlanks (memberChars (e :: entries) ++ rest) = memberChars (e :: entries) ++ rest := by
  obtain ⟨tail, htail⟩ := exists_quote e entries
  rw [htail]
  rfl

theorem takeMembers_written (hplain : ∀ e ∈ entries, e.2.Plain)
    (hwritable : ∀ e ∈ entries, e.2.writable = true) (hsome : entries ≠ []) (depth : Nat)
    (rest : List Char) (fuel : Nat) (hfuel : entries.length < fuel) :
    takeMembers fuel depth (memberChars entries ++ '\x7d' :: rest) =
      .ok (codedMembers (decodedMembers entries), rest) := by
  induction entries generalizing fuel with
  | nil => exact absurd rfl hsome
  | cons e entries ih =>
    obtain ⟨name, v⟩ := e
    rw [List.length_cons] at hfuel
    obtain ⟨fuel, rfl⟩ : ∃ n, fuel = n + 2 := ⟨fuel - 2, by omega⟩
    have hfirst := takeMembers_member name (hplain _ List.mem_cons_self)
      (hwritable _ List.mem_cons_self) fuel depth
    cases entries with
    | nil =>
      have hmember := hfirst ('\x7d' :: rest) ⟨_, rest, rfl, Or.inr rfl⟩
      simp only [memberChars, List.append_assoc, List.cons_append]
      rw [hmember]
      rfl
    | cons next entries =>
      have hmember := hfirst (',' :: ' ' :: (memberChars (next :: entries) ++ '\x7d' :: rest))
        ⟨_, _, rfl, Or.inl rfl⟩
      have hnext := ih (fun x hx => hplain x (List.mem_cons_of_mem _ hx))
        (fun x hx => hwritable x (List.mem_cons_of_mem _ hx)) (by simp) (fuel + 1) (by omega)
      rw [memberChars.eq_3 _ _ _ (by simp)]
      simp only [List.append_assoc, List.cons_append]
      rw [hmember]
      change (do
        let (more, left) ← takeMembers (fuel + 1) depth
          (skipBlanks (memberChars (next :: entries) ++ '\x7d' :: rest))
        _ : Except Flaw _) = _
      rw [skipBlanks_members, hnext]
      rfl

theorem toNat_injective : Function.Injective fun s : String => s.toList.map Char.toNat := by
  intro s t h
  have hcodes : ofCodes (s.toList.map Char.toNat) = ofCodes (t.toList.map Char.toNat) :=
    congrArg ofCodes h
  rw [ofCodes_toNat, ofCodes_toNat] at hcodes
  exact Json.text.inj hcodes

/-- Members of different names are read back. -/
theorem ofMembers_codedMembers (hnodup : (entries.map Prod.fst).Nodup) :
    ofMembers (codedMembers entries) = .object entries := by
  have hcodes : ((codedMembers entries).map Prod.fst).Nodup := by
    have hnames : (codedMembers entries).map Prod.fst =
        (entries.map Prod.fst).map fun s => s.toList.map Char.toNat := by
      simp [codedMembers, List.map_map, Function.comp_def]
    rw [hnames]
    exact hnodup.map toNat_injective
  have hentries : (codedMembers entries).map (fun e => (ofCodes e.1, e.2)) =
      entries.map fun e => (.text e.1, e.2) := by
    simp [codedMembers, List.map_map, Function.comp_def, ofCodes_toNat]
  have hplain : plainNames? (entries.map fun e => (Json.text e.1, e.2)) = some entries := by
    unfold plainNames?
    clear hnodup hcodes hentries
    induction entries with
    | nil => rfl
    | cons e rest ih => simp_all [text?]
  rw [ofMembers, OrderedMap.entries_ofList _ hcodes, hentries, ofEntries, hplain]

theorem length_le_members (entries : List (String × Json)) :
    entries.length ≤ (memberChars entries).length := by
  induction entries with
  | nil => simp
  | cons e rest ih =>
    cases rest with
    | nil => simp [memberChars, stringChars]
    | cons next others =>
      have hsplit : memberChars (e :: next :: others) =
          stringChars e.1.toList ++ ':' :: ' ' :: chars e.2 ++ ',' :: ' ' ::
            memberChars (next :: others) := by
        rw [memberChars.eq_3 _ _ _ (by simp)]
      rw [hsplit]
      simp only [List.length_append, List.length_cons] at ih ⊢
      omega

theorem takeValue_members (hplain : ∀ e ∈ entries, e.2.Plain)
    (hwritable : ∀ e ∈ entries, e.2.writable = true) (hnodup : (entries.map Prod.fst).Nodup)
    (depth : Nat) (fuel : Nat) (hfuel : entries.length < fuel) :
    takeValue (fuel + 1) (depth + 1) ('\x7b' :: (memberChars entries ++ ['\x7d'])) =
      .ok (.object (decodedMembers entries), []) := by
  rw [takeValue]
  cases entries with
  | nil => rfl
  | cons e rest =>
    have hmembers := takeMembers_written hplain hwritable (by simp) depth [] fuel hfuel
    rw [skipBlanks_members]
    split
    · next h =>
      obtain ⟨tail, htail⟩ := exists_quote e rest
      rw [htail] at h
      exact absurd (List.cons.inj h).1 (by decide)
    · rw [hmembers]
      change Except.ok (ofMembers (codedMembers (decodedMembers (e :: rest))), _) = _
      rw [ofMembers_codedMembers (by rwa [names_decodedMembers])]

/-- Strings and numbers under different names are read back from what is written for them. -/
theorem read_object (hplain : ∀ e ∈ entries, e.2.Plain)
    (hwritable : ∀ e ∈ entries, e.2.writable = true) (hnodup : (entries.map Prod.fst).Nodup)
    (depth : Nat) :
    read (depth + 1) (object entries).render = .ok (.object (decodedMembers entries)) := by
  have hchars : (object entries).render.toList =
      '\x7b' :: (memberChars entries ++ ['\x7d']) := by
    rw [render, String.toList_ofList]
    rfl
  have hlength := length_le_members entries
  have hvalue := takeValue_members hplain hwritable hnodup depth
    (object entries).render.toList.length (by
      rw [hchars, List.length_cons, List.length_append]
      omega)
  rw [← hchars] at hvalue
  have hblanks : skipBlanks (object entries).render.toList = (object entries).render.toList := by
    rw [hchars]
    rfl
  simp only [read, hblanks, hvalue]
  rfl

theorem parse?_object (hplain : ∀ e ∈ entries, e.2.Plain)
    (hwritable : ∀ e ∈ entries, e.2.writable = true) (hnodup : (entries.map Prod.fst).Nodup) :
    parse? (object entries).render = some (.object (decodedMembers entries)) := by
  obtain ⟨depth, hdepth⟩ : ∃ depth, (object entries).render.length = depth + 1 := by
    refine Nat.exists_eq_succ_of_ne_zero ?_
    rw [← String.length_toList, render, String.toList_ofList]
    simp [chars]
  rw [parse?, hdepth, read_object hplain hwritable hnodup]
  rfl

end Members

/-- Texts under names are read back from what is written for them. -/
theorem read_ofTexts (m : OrderedMap String String) :
    read usualDepth (ofTexts m).render = .ok (ofTexts m) := by
  have hplain : ∀ e ∈ m.entries.map fun e => (e.1, Json.text e.2), e.2.Plain := by
    intro e he
    obtain ⟨x, -, rfl⟩ := List.mem_map.mp he
    exact .string _ (Text.Loose.proper_plain x.2)
  have hwritable : ∀ e ∈ m.entries.map fun e => (e.1, Json.text e.2), e.2.writable = true := by
    intro e he
    obtain ⟨x, -, rfl⟩ := List.mem_map.mp he
    rfl
  have hnodup : ((m.entries.map fun e => (e.1, Json.text e.2)).map Prod.fst).Nodup := by
    rw [List.map_map]
    exact m.nodup
  have hdecoded : decodedMembers (m.entries.map fun e => (e.1, Json.text e.2)) =
      m.entries.map fun e => (e.1, Json.text e.2) := by
    rw [decodedMembers, List.map_map]
    rfl
  have hread := read_object hplain hwritable hnodup 979
  rwa [hdecoded] at hread

theorem visible_plain {v : Json} (hplain : v.Plain) : ∀ d ∈ chars v, Visible d := by
  cases hplain with
  | string s hs =>
    rw [chars_ofLoose]
    exact visible_codeChars hs.codes
  | int n =>
    have hdigits : ∀ d ∈ Nat.toDigits 10 n.natAbs, Visible d := by
      intro d hd
      have hdigit := Nat.isDigit_of_mem_toDigits (by decide) (by decide) hd
      simp only [Char.isDigit, Bool.and_eq_true, decide_eq_true_eq] at hdigit
      have hlow : 48 ≤ d.toNat := UInt32.le_iff_toNat_le.mp hdigit.1
      have hhigh : d.toNat ≤ 57 := UInt32.le_iff_toNat_le.mp hdigit.2
      exact ⟨by omega, by omega⟩
    intro d hd
    rw [chars, intChars] at hd
    split at hd
    · rcases List.mem_cons.mp hd with rfl | hd
      · decide
      · exact hdigits d hd
    · exact hdigits d hd

theorem visible_members {entries : List (String × Json)} (hplain : ∀ e ∈ entries, e.2.Plain) :
    ∀ d ∈ memberChars entries, Visible d := by
  induction entries with
  | nil => simp [memberChars]
  | cons e rest ih =>
    have hfirst : ∀ d ∈ stringChars e.1.toList ++ ':' :: ' ' :: chars e.2, Visible d := by
      intro d hd
      simp only [List.mem_append, List.mem_cons] at hd
      rcases hd with hd | rfl | rfl | hd
      · exact visible_stringChars e.1 d hd
      · decide
      · decide
      · exact visible_plain (hplain e List.mem_cons_self) d hd
    cases rest with
    | nil => exact hfirst
    | cons next others =>
      intro d hd
      rw [memberChars.eq_3 _ _ _ (by simp)] at hd
      rcases List.mem_append.mp hd with hd | hd
      · exact hfirst d hd
      rcases List.mem_cons.mp hd with rfl | hd
      · decide
      rcases List.mem_cons.mp hd with rfl | hd
      · decide
      exact ih (fun x hx => hplain x (List.mem_cons_of_mem e hx)) d hd

theorem visible_object {entries : List (String × Json)} (hplain : ∀ e ∈ entries, e.2.Plain) :
    ∀ d ∈ (object entries).render.toList, Visible d := by
  intro d hd
  rw [render, String.toList_ofList, chars, List.cons_append, List.mem_cons, List.mem_append,
    List.mem_singleton] at hd
  rcases hd with rfl | hd | rfl
  · decide
  · exact visible_members hplain d hd
  · decide

end Json

end Depot
