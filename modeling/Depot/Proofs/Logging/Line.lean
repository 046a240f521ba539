import Depot.Logging.Record
import Depot.Proofs.Json.Written

/-!
JSON log lines. Whatever strings a record holds, its line is visible ASCII, so that nothing in a
message can end the line early, and what is read back from the line are the fields of the
record and no others. A string is read back as it was but for surrogates: a high one directly
before a low one is written as the character which the two encode is written.
-/
namespace Depot

namespace Json

variable {members : List (String × Json)} {key : String} {v : Json}

/-- Of members under different names each is found under its own. -/
theorem member?_object (hnodup : (members.map Prod.fst).Nodup) :
    (object members).member? key = some v ↔ (key, v) ∈ members := by
  have hreversed : (members.reverse.map Prod.fst).Nodup := by
    rw [List.map_reverse, List.nodup_reverse]
    exact hnodup
  have hget := OrderedMap.get?_eq_some_iff (m := ⟨members.reverse, hreversed⟩) (k := key) (v := v)
  rw [List.mem_reverse] at hget
  exact hget

theorem member?_decodedMembers :
    (object (decodedMembers members)).member? key = ((object members).member? key).map decoded := by
  simp only [member?, decodedMembers, ← List.map_reverse]
  induction members.reverse with
  | nil => rfl
  | cons e rest ih =>
    rw [List.map_cons, List.lookup_cons, List.lookup_cons, ih]
    cases key == e.1 <;> rfl

theorem membersWritable_iff :
    membersWritable members = true ↔ ∀ e ∈ members, e.2.writable = true := by
  induction members with
  | nil => simp [membersWritable]
  | cons e rest ih => simp [membersWritable, ih]

end Json

namespace Logging.Record

variable {r : Record} {t : Calendar.Instant} {name : String} {v : Json} {line : String}

def extra? (r : Record) (name : String) : Option Json :=
  match r.extras.lookup name with
  | some .null => none
  | found => found

structure Proper (r : Record) : Prop where
  logger : r.logger.Proper
  message : r.message.Proper
  exception : ∀ text, r.exception = some text → text.Proper
  extras : ∀ name ∈ extraNames, ∀ v, r.extra? name = some v → v.Plain

def lineNames : List String :=
  ["timestamp", "level", "logger", "message", "exception"] ++ extraNames

theorem shownExtras_eq (r : Record) :
    r.shownExtras = extraNames.filterMap fun name => (r.extra? name).map (name, ·) := by
  unfold shownExtras
  refine List.filterMap_congr fun name _ => ?_
  unfold extra?
  cases r.extras.lookup name with
  | none => rfl
  | some v => cases v <;> rfl

theorem mem_shownExtras :
    (name, v) ∈ r.shownExtras ↔ name ∈ extraNames ∧ r.extra? name = some v := by
  rw [shownExtras_eq, List.mem_filterMap]
  constructor
  · rintro ⟨key, hkey, hmember⟩
    obtain ⟨w, hw, heq⟩ := Option.map_eq_some_iff.mp hmember
    obtain ⟨rfl, rfl⟩ := Prod.mk.inj heq
    exact ⟨hkey, hw⟩
  · rintro ⟨hname, hv⟩
    exact ⟨name, hname, by rw [hv]; rfl⟩

theorem names_shownExtras (r : Record) :
    r.shownExtras.map Prod.fst = extraNames.filter fun name => (r.extra? name).isSome := by
  rw [shownExtras_eq, List.map_filterMap, ← List.filterMap_eq_filter]
  refine List.filterMap_congr fun name _ => ?_
  cases hextra : r.extra? name <;> simp [Option.guard, hextra]

theorem mem_members :
    (name, v) ∈ r.members t ↔
      (name = "timestamp" ∧ v = .text (Calendar.isoText t)) ∨
      (name = "level" ∧ v = .text (levelName r.level)) ∨
      (name = "logger" ∧ v = .ofLoose r.logger) ∨
      (name = "message" ∧ v = .ofLoose r.message) ∨
      (name = "exception" ∧ ∃ text, r.exception = some text ∧ v = .ofLoose text) ∨
      (name ∈ extraNames ∧ r.extra? name = some v) := by
  have hexception : (name, v) ∈
        (r.exception.map fun text => ("exception", Json.ofLoose text)).toList ↔
      name = "exception" ∧ ∃ text, r.exception = some text ∧ v = .ofLoose text := by
    cases r.exception <;> simp
  simp only [members, List.mem_append, List.mem_cons, List.not_mem_nil, or_false, hexception,
    mem_shownExtras, Prod.mk.injEq, or_assoc]

/-- No name stands in a line twice. -/
theorem members_nodup (r : Record) (t : Calendar.Instant) : ((r.members t).map Prod.fst).Nodup := by
  have hexception : ((r.exception.map fun text => ("exception", Json.ofLoose text)).toList.map
      Prod.fst).Sublist ["exception"] := by
    cases r.exception <;> simp
  have hextras : (r.shownExtras.map Prod.fst).Sublist extraNames := by
    rw [names_shownExtras]
    exact List.filter_sublist
  have hsub : ((r.members t).map Prod.fst).Sublist lineNames := by
    rw [members, List.map_append, List.map_append]
    exact ((List.Sublist.refl _).append hexception).append hextras
  exact (by decide : lineNames.Nodup).sublist hsub

theorem members_plain (hproper : r.Proper) : ∀ e ∈ r.members t, e.2.Plain := by
  rintro ⟨name, v⟩ he
  rcases mem_members.mp he with
    ⟨-, rfl⟩ | ⟨-, rfl⟩ | ⟨-, rfl⟩ | ⟨-, rfl⟩ | ⟨-, text, htext, rfl⟩ | ⟨hname, hv⟩
  · exact .string _ (Text.Loose.proper_plain _)
  · exact .string _ (Text.Loose.proper_plain _)
  · exact .string _ hproper.logger
  · exact .string _ hproper.message
  · exact .string _ (hproper.exception text htext)
  · exact hproper.extras name hname v hv

/-- Numbers of too many digits are all that a line can fail for. -/
theorem members_writable_iff (hproper : r.Proper) :
    (Json.object (r.members t)).writable = true ↔
      ∀ name ∈ extraNames, ∀ n, r.extra? name = some (.int n) →
        (Nat.toDigits 10 n.natAbs).length ≤ Json.digitLimit := by
  rw [Json.writable, Json.membersWritable_iff]
  constructor
  · intro hwritable name hname n hn
    have hmember := hwritable (name, .int n)
      (mem_members.mpr (by simp only [hname, hn, true_and, or_true]))
    simpa [Json.writable] using hmember
  · rintro hshort ⟨name, v⟩ he
    have hv := members_plain hproper _ he
    have hint : ∀ n, v = .int n → v.writable = true := by
      rintro n rfl
      have hextra : name ∈ extraNames ∧ r.extra? name = some (.int n) := by
        rcases mem_members.mp he with ⟨-, h⟩ | ⟨-, h⟩ | ⟨-, h⟩ | ⟨-, h⟩ | ⟨-, text, -, h⟩ | h
        · cases h
        · cases h
        · exact absurd h.symm (Json.ofLoose_ne_int _ n)
        · exact absurd h.symm (Json.ofLoose_ne_int _ n)
        · exact absurd h.symm (Json.ofLoose_ne_int _ n)
        · exact h
      simpa [Json.writable] using hshort name hextra.1 n hextra.2
    cases hv with
    | string s => cases s <;> rfl
    | int n => exact hint n rfl

theorem jsonLine?_eq_some_iff :
    r.jsonLine? = some line ↔
      ∃ t, r.instant? = some t ∧ (Json.object (r.members t)).writable = true ∧
        (Json.object (r.members t)).render = line := by
  simp [jsonLine?, Json.render?, Option.bind_eq_some_iff]

/-- The line is read back, if there is one. -/
theorem parse?_jsonLine (hproper : r.Proper) (hline : r.jsonLine? = some line) :
    ∃ t, (Json.object (r.members t)).render = line ∧
      Json.parse? line = some (.object (Json.decodedMembers (r.members t))) := by
  obtain ⟨t, -, hwritable, rfl⟩ := jsonLine?_eq_some_iff.mp hline
  rw [Json.writable, Json.membersWritable_iff] at hwritable
  exact ⟨t, rfl, Json.parse?_object (members_plain hproper) hwritable (members_nodup r t)⟩

theorem exists_jsonLine_iff (hproper : r.Proper) :
    (∃ line, r.jsonLine? = some line) ↔ (∃ t, r.instant? = some t) ∧
      ∀ name ∈ extraNames, ∀ n, r.extra? name = some (.int n) →
        (Nat.toDigits 10 n.natAbs).length ≤ Json.digitLimit := by
  simp only [jsonLine?_eq_some_iff, members_writable_iff hproper]
  constructor
  · rintro ⟨-, t, ht, hshort, -⟩
    exact ⟨⟨t, ht⟩, hshort⟩
  · rintro ⟨⟨t, ht⟩, hshort⟩
    exact ⟨_, t, ht, hshort, rfl⟩

/-- What a value says of a record: its level, logger and message, the exception and each of the
extras when they are there, each as it is read, and besides these at most a time. -/
structure Tells (r : Record) (v : Json) : Prop where
  level : v.member? "level" = some (.text (levelName r.level))
  logger : v.member? "logger" = some (Json.ofLoose r.logger).decoded
  message : v.member? "message" = some (Json.ofLoose r.message).decoded
  exception : v.member? "exception" = r.exception.map fun text => (Json.ofLoose text).decoded
  extras : ∀ name ∈ extraNames, v.member? name = (r.extra? name).map Json.decoded
  nothingElse : ∀ name w, v.member? name = some w → name ∈ lineNames

theorem tells_members (r : Record) (t : Calendar.Instant) :
    r.Tells (.object (Json.decodedMembers (r.members t))) := by
  have hmember : ∀ name v, (Json.object (r.members t)).member? name = some v ↔
      (name, v) ∈ r.members t := fun _ _ => Json.member?_object (members_nodup r t)
  have hdecoded : ∀ name v, (name, v) ∈ r.members t →
      (Json.object (Json.decodedMembers (r.members t))).member? name = some v.decoded := by
    intro name v hv
    rw [Json.member?_decodedMembers, (hmember name v).mpr hv]
    rfl
  refine ⟨?_, ?_, ?_, ?_, fun name hname => ?_, fun name w hw => ?_⟩
  · exact hdecoded "level" (.text _) (mem_members.mpr (by simp))
  · exact hdecoded "logger" (.ofLoose _) (mem_members.mpr (by simp))
  · exact hdecoded "message" (.ofLoose _) (mem_members.mpr (by simp))
  · have hfound : (Json.object (r.members t)).member? "exception" =
        r.exception.map Json.ofLoose := by
      refine Option.ext fun v => ?_
      rw [hmember, mem_members]
      simp [extraNames, eq_comm]
    rw [Json.member?_decodedMembers, hfound, Option.map_map]
    rfl
  · have hfound : (Json.object (r.members t)).member? name = r.extra? name := by
      refine Option.ext fun v => ?_
      rw [hmember, mem_members]
      -- No extra has a name of what every line may show.
      have hother : name ∉ ["timestamp", "level", "logger", "message", "exception"] := by
        revert name
        decide
      simp only [List.mem_cons, List.not_mem_nil, or_false, not_or] at hother
      simp [hother, hname]
    rw [Json.member?_decodedMembers, hfound]
  · rw [Json.member?_decodedMembers] at hw
    obtain ⟨v, hv, -⟩ := Option.map_eq_some_iff.mp hw
    rcases mem_members.mp ((hmember _ _).mp hv) with
      ⟨rfl, -⟩ | ⟨rfl, -⟩ | ⟨rfl, -⟩ | ⟨rfl, -⟩ | ⟨rfl, -⟩ | ⟨hname, -⟩
    · decide
    · decide
    · decide
    · decide
    · decide
    · exact List.mem_append_right _ hname

/-- The line of any record whose fields are strings and whose extras are strings and whole
numbers. There is one just when the calendar reaches the time of the record and no number has
too many digits. All its characters are visible ASCII, so it has no line break, and it is read
back as an object in which no name stands twice and which tells of the record what there is to
tell. What is told of a string is the string itself, unless in it a high surrogate stands
directly before a low one. -/
theorem jsonLine_decodes (r : Record) (hproper : r.Proper) :
    ((∃ line, r.jsonLine? = some line) ↔ (∃ t, r.instant? = some t) ∧
      ∀ name ∈ extraNames, ∀ n, r.extra? name = some (.int n) →
        (Nat.toDigits 10 n.natAbs).length ≤ Json.digitLimit) ∧
    (∀ line, r.jsonLine? = some line →
      (∀ c ∈ line.toList, Json.Visible c) ∧
      ∃ members, Json.parse? line = some (.object members) ∧
        (members.map Prod.fst).Nodup ∧ r.Tells (.object members)) ∧
    ∀ s : Text.Loose, s.Proper →
      ((Json.ofLoose s).decoded = .ofLoose s ↔ Text.Unpaired s.units) := by
  refine ⟨exists_jsonLine_iff hproper, fun line hline => ?_, fun s hs => Json.decoded_eq_iff hs⟩
  obtain ⟨t, rfl, hparse⟩ := parse?_jsonLine hproper hline
  refine ⟨Json.visible_object (members_plain hproper), _, hparse, ?_, tells_members r t⟩
  rw [Json.names_decodedMembers]
  exact members_nodup r t

def forging : Record where
  time := timeOf 1704067200 250
  milliseconds := 250
  level := info
  logger := "polystore"
  message := "done\n\x7b\"level\": \"ERROR\"\x7d\u2028😀"
  exception := some (Text.Loose.codes [84, 0xDE00, 13, 10, 0xD83D])
  extras := [("delay", .int (-3)), ("path", .text "a\"b\\c"), ("state", .null)]

theorem extra?_forging {name : String} {v : Json} (hname : name ∈ extraNames)
    (hv : forging.extra? name = some v) : v = .int (-3) ∨ v = .text "a\"b\\c" := by
  simp only [extraNames, List.mem_cons, List.not_mem_nil, or_false] at hname
  rcases hname with rfl | rfl | rfl | rfl | rfl
  · exact Or.inr (Option.some.inj hv).symm
  · exact absurd hv (Option.some_ne_none v).symm
  · exact Or.inl (Option.some.inj hv).symm
  · exact absurd hv (Option.some_ne_none v).symm
  · exact absurd hv (Option.some_ne_none v).symm

theorem proper_forging : forging.Proper where
  logger := Text.Loose.proper_plain _
  message := Text.Loose.proper_plain _
  exception text htext := by
    cases htext
    exact ⟨by decide, rfl⟩
  extras name hname v hv := by
    rcases extra?_forging hname hv with rfl | rfl
    · exact .int _
    · exact .string _ (Text.Loose.proper_plain _)

theorem writable_forging : ∀ name ∈ extraNames, ∀ n, forging.extra? name = some (.int n) →
    (Nat.toDigits 10 n.natAbs).length ≤ Json.digitLimit := by
  intro name hname n hn
  rcases extra?_forging hname hn with heq | heq
  · rw [Json.int.inj heq]
    decide
  · cases heq

theorem jsonLine_decodes_forging :
    forging.Proper ∧ ∃ line members, forging.jsonLine? = some line ∧ '\n' ∉ line.toList ∧
      Json.parse? line = some (.object members) ∧
      (Json.object members).member? "message" = some (.ofLoose forging.message) ∧
      (Json.object members).member? "exception" = some (.codes [84, 0xDE00, 13, 10, 0xD83D]) ∧
      (Json.object members).member? "delay" = some (.int (-3)) ∧
      (Json.object members).member? "state" = none := by
  obtain ⟨hexists, hdecodes, -⟩ := jsonLine_decodes forging proper_forging
  obtain ⟨line, hline⟩ := hexists.mpr ⟨⟨1704067200250000, by rfl⟩, writable_forging⟩
  obtain ⟨hvisible, members, hparse, -, htells⟩ := hdecodes line hline
  refine ⟨proper_forging, line, members, hline, fun hbreak => ?_, hparse, htells.message,
    htells.exception, ?_, ?_⟩
  · exact absurd (hvisible _ hbreak) (by decide)
  · exact htells.extras "delay" (by decide)
  · exact htells.extras "state" (by decide)

/-- The two halves of a pair, given as two, come back as the one character they encode. A number
of 4301 digits has no line, nor has the first second of the year 10000. -/
theorem halves_come_back_joined :
    (∃ line members,
      { forging with message := .codes [0xD83D, 0xDE00] }.jsonLine? = some line ∧
      Json.parse? line = some (.object members) ∧
      (Json.object members).member? "message" = some (.text "😀")) ∧
    { forging with extras := [("delay", .int (10 ^ 4300))] }.jsonLine? = none ∧
    { forging with time := timeOf 253402300800 0 }.jsonLine? = none := by
  refine ⟨?_, ?_, ?_⟩
  · have hproper : Proper { forging with message := .codes [0xD83D, 0xDE00] } :=
      { proper_forging with message := ⟨by decide, rfl⟩ }
    obtain ⟨line, hline⟩ := (exists_jsonLine_iff hproper).mpr
      ⟨⟨1704067200250000, by rfl⟩, writable_forging⟩
    obtain ⟨t, -, hparse⟩ := parse?_jsonLine hproper hline
    exact ⟨line, _, hline, hparse, (tells_members _ t).message⟩
  · refine Option.eq_none_iff_forall_ne_some.mpr fun line hline => ?_
    obtain ⟨t, -, hwritable, -⟩ := jsonLine?_eq_some_iff.mp hline
    rw [Json.writable, Json.membersWritable_iff] at hwritable
    have hname : "delay" ∈ extraNames := by decide
    have hextra : extra? { forging with extras := [("delay", .int (10 ^ 4300))] } "delay" =
        some (.int (10 ^ 4300)) := rfl
    have hshort := hwritable ("delay", .int (10 ^ 4300))
      (mem_members.mpr (by simp only [hname, hextra, true_and, or_true]))
    have habs : ∀ k, ((10 : Int) ^ k).natAbs = 10 ^ k := fun k => Int.natAbs_pow 10 k
    simp only [Json.writable, Json.digitLimit, habs, decide_eq_true_eq] at hshort
    exact lt_irrefl _ ((Nat.length_toDigits_le_iff (by decide) (by decide)).mp hshort)
  · rw [jsonLine?]
    rfl

end Logging.Record

end Depot
