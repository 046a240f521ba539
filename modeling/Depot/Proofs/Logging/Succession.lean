import Depot.Logging.Setup
import Depot.Proofs.Action
import Depot.Proofs.Logging.Hierarchy
import Mathlib.Data.List.Induction

/-!
Setups one after another. A call puts its own handler in the place of the old ones, and gives
levels to the root and to the loggers that it names. It takes no level back: a logger that is
not named keeps the level that the last call naming it gave it. So the last call decides about
all records but those that come under a logger which only earlier calls named. Loggers that are
asked for in between, with or without records, make no difference to this.
-/
namespace Depot.Logging.Setup

structure Call where
  level : String
  format : String
  loggerLevels : List (String × String)
  stream : Stream

def canonical (logger : Name) : Name := if logger = [] then root else logger

def levelAmong? (logger : Name) : List (String × String) → Option Level
  | [] => none
  | (n, name) :: rest =>
    match levelOf name with
    | .error _ => none
    | .ok level =>
      (levelAmong? logger rest).or
        (if canonical (nameOf n) = canonical logger then some level else none)

namespace Call

def act (c : Call) : Action Setup Unit := configure c.level c.format c.loggerLevels c.stream

/-- What a call leaves behind, even if it is refused on the way. -/
def applyTo (s : Setup) (c : Call) : Setup := (c.act.runFrom s).2

def given? (c : Call) (logger : Name) : Option Level :=
  levelAmong? logger ((rootName, c.level) :: c.loggerLevels)

def Accepted (c : Call) : Prop := ∃ level, levelOf c.level = .ok level

instance (c : Call) : Decidable c.Accepted :=
  match h : levelOf c.level with
  | .ok level => .isTrue ⟨level, h⟩
  | .error _ => .isFalse fun ⟨_, hlevel⟩ => by cases h.symm.trans hlevel

end Call

inductive Event
  | configure (c : Call)
  | ask (logger : Name)

namespace Event

def applyTo (s : Setup) : Event → Setup
  | configure c => c.applyTo s
  | ask logger => s.ask logger

def given? (logger : Name) : Event → Option Level
  | configure c => c.given? logger
  | ask _ => none

end Event

def after (events : List Event) : Setup := events.foldl Event.applyTo .initial

def lastGiven? (events : List Event) (logger : Name) : Option Level :=
  events.reverse.findSome? (Event.given? logger)

def own (s : Setup) (logger : Name) : Level :=
  if isRoot logger then s.rootLevel else s.loggers.level logger

def settled (s : Setup) (logger : Name) : Bool := !isRoot logger && s.own logger ≠ 0

/-- The logger whose level counts: the nearest one, from the logger up, that has a level other
than zero, or else the root. -/
def decider (s : Setup) (logger : Name) : Name :=
  if isRoot logger then root
  else ((logger :: above logger).find? s.settled).getD root

variable {s t : Setup} {c : Call} {logger n : Name} {level : Level} {events earlier : List Event}
  {asked : List Name}

theorem canonical_of_ordinary (hroot : isRoot logger = false) : canonical logger = logger := by
  have hsome : logger ≠ [] := by
    rintro rfl
    simp [isRoot] at hroot
  rw [canonical, if_neg hsome]

/-- The root is known by one name, which no other logger has. -/
theorem isRoot_iff : isRoot logger = true ↔ canonical logger = root := by
  constructor
  · intro hroot
    rw [canonical]
    split
    · rfl
    · next hsome => simpa [isRoot, hsome] using hroot
  · intro hname
    cases hroot : isRoot logger with
    | true => rfl
    | false =>
      rw [canonical_of_ordinary hroot] at hname
      rw [← hroot, hname]
      decide

theorem isRoot_congr (h : canonical n = canonical logger) : isRoot n = isRoot logger := by
  rw [Bool.eq_iff_iff, isRoot_iff, isRoot_iff, h]

theorem own_of_root (hroot : isRoot logger = true) (s : Setup) : s.own logger = s.rootLevel := by
  rw [own, if_pos hroot]

theorem own_of_ordinary (hroot : isRoot logger = false) (s : Setup) :
    s.own logger = s.loggers.level logger := by
  rw [own, hroot]
  rfl

/-! ### Loggers that are asked for -/

theorem own_ask (s : Setup) (n logger : Name) : (s.ask n).own logger = s.own logger := by
  unfold ask
  split
  · rfl
  · unfold own
    dsimp only
    rw [Loggers.level_ask]

theorem handlers_ask (s : Setup) (n : Name) : (s.ask n).handlers = s.handlers := by
  unfold ask
  split <;> rfl

theorem own_setLevel (s : Setup) (n logger : Name) (level : Level) :
    (s.setLevel n level).own logger =
      if canonical n = canonical logger then level else s.own logger := by
  unfold setLevel
  cases hn : isRoot n <;> cases hlogger : isRoot logger
  · have hthere : Loggers.isLogger (s.loggers.ask n) n = true :=
      (Loggers.isLogger_ask _ n n).mpr (.inl rfl)
    rw [canonical_of_ordinary hn, canonical_of_ordinary hlogger, own_of_ordinary hlogger,
      own_of_ordinary hlogger]
    simp only [Bool.false_eq_true, if_false]
    rw [Loggers.level_setLevel hthere, Loggers.level_ask, if_congr eq_comm rfl rfl]
  · have hne : canonical n ≠ canonical logger := fun hname => by
      simp [(isRoot_congr hname).trans hlogger] at hn
    rw [own_of_root hlogger, own_of_root hlogger, if_neg hne]
    rfl
  · have hne : canonical n ≠ canonical logger := fun hname => by
      simp [(isRoot_congr hname).trans hlogger] at hn
    rw [own_of_ordinary hlogger, own_of_ordinary hlogger, if_neg hne]
    rfl
  · rw [own_of_root hlogger, if_pos ((isRoot_iff.mp hn).trans (isRoot_iff.mp hlogger).symm)]
    rfl

theorem handlers_setLevel (s : Setup) (n : Name) (level : Level) :
    (s.setLevel n level).handlers = s.handlers := by
  unfold setLevel
  split <;> rfl

/-! ### Calls -/

theorem runFrom_setLevels_cons (n name : String) (rest : List (String × String)) (s : Setup) :
    ((setLevels ((n, name) :: rest)).runFrom s).2 =
      match levelOf name with
      | .error _ => s.ask (nameOf n)
      | .ok level => ((setLevels rest).runFrom
          ((s.ask (nameOf n)).setLevel (nameOf n) level)).2 := by
  rw [setLevels, Action.runFrom_bind]
  change ((do
    let level ← (levelOf name : Action Setup Level)
    modify (·.setLevel (nameOf n) level)
    setLevels rest : Action Setup Unit).runFrom (s.ask (nameOf n))).2 = _
  rw [Action.runFrom_bind, Action.runFrom_lift]
  cases levelOf name <;> rfl

/-- Levels are given in order, up to a refusal. -/
theorem own_setLevels (levels : List (String × String)) (s : Setup) (logger : Name) :
    ((setLevels levels).runFrom s).2.own logger =
      (levelAmong? logger levels).getD (s.own logger) := by
  induction levels generalizing s with
  | nil => rfl
  | cons e rest ih =>
    obtain ⟨n, name⟩ := e
    rw [runFrom_setLevels_cons, levelAmong?]
    cases levelOf name with
    | error e => exact own_ask s (nameOf n) logger
    | ok level =>
      dsimp only
      rw [ih, own_setLevel, own_ask]
      cases levelAmong? logger rest with
      | some later => rfl
      | none => split <;> rfl

/-- What every single level and every question keeps is kept by many, whether or not one is
refused. -/
theorem setLevels_preserves {P : Setup → Prop} (hask : ∀ s n, P s → P (s.ask n))
    (hstep : ∀ s n level, P s → P (s.setLevel n level)) (levels : List (String × String))
    (h : P s) : P ((setLevels levels).runFrom s).2 := by
  induction levels generalizing s with
  | nil => exact h
  | cons e rest ih =>
    obtain ⟨n, name⟩ := e
    rw [runFrom_setLevels_cons]
    cases levelOf name with
    | error e => exact hask s (nameOf n) h
    | ok level => exact ih (hstep _ (nameOf n) level (hask s (nameOf n) h))

theorem handlers_setLevels (levels : List (String × String)) (s : Setup) :
    ((setLevels levels).runFrom s).2.handlers = s.handlers :=
  setLevels_preserves (P := fun t => t.handlers = s.handlers)
    (fun t n h => (handlers_ask t n).trans h)
    (fun t n level h => (handlers_setLevel t n level).trans h) levels rfl

/-- A call gives its levels to the root and then to its loggers, and brings its handler. -/
theorem applyTo_eq (c : Call) (s : Setup) :
    c.applyTo s =
      match levelOf c.level with
      | .error _ => s
      | .ok level =>
        ((setLevels c.loggerLevels).runFrom
          { s.setLevel root level with handlers := [⟨c.stream, .ofName c.format⟩] }).2 := by
  rw [Call.applyTo, Call.act, configure, Action.runFrom_bind, Action.runFrom_lift]
  cases levelOf c.level <;> rfl

theorem handlers_applyTo (haccepted : c.Accepted) (s : Setup) :
    (c.applyTo s).handlers = [⟨c.stream, .ofName c.format⟩] := by
  obtain ⟨level, hlevel⟩ := haccepted
  rw [applyTo_eq, hlevel]
  exact handlers_setLevels _ _

/-- After a call a logger has the level that the call gave it, or else the one it had. -/
theorem own_applyTo (c : Call) (s : Setup) (logger : Name) :
    (c.applyTo s).own logger = (c.given? logger).getD (s.own logger) := by
  rw [applyTo_eq, Call.given?, levelAmong?]
  cases levelOf c.level with
  | error e => rfl
  | ok level =>
    dsimp only
    rw [own_setLevels]
    have hroot : own { s.setLevel root level with handlers := [⟨c.stream, .ofName c.format⟩] }
        logger = if canonical (nameOf rootName) = canonical logger then level else s.own logger :=
      own_setLevel s root logger level
    rw [hroot]
    cases levelAmong? logger c.loggerLevels with
    | some later => rfl
    | none => split <;> rfl

/-! ### Events -/

theorem after_concat (events : List Event) (e : Event) :
    after (events ++ [e]) = e.applyTo (after events) := by
  rw [after, List.foldl_append]
  rfl

theorem lastGiven?_concat (events : List Event) (e : Event) (logger : Name) :
    lastGiven? (events ++ [e]) logger = (e.given? logger).or (lastGiven? events logger) := by
  rw [lastGiven?, List.reverse_concat, List.findSome?_cons]
  cases e.given? logger <;> rfl

/-- Whatever happens, a logger has the level that the last call to give it one gave it. -/
theorem own_after (events : List Event) (logger : Name) :
    (after events).own logger = (lastGiven? events logger).getD (initial.own logger) := by
  induction events using List.reverseRecOn with
  | nil => rfl
  | append_singleton events e ih =>
    rw [after_concat, lastGiven?_concat]
    cases e with
    | configure c =>
      rw [Event.applyTo, own_applyTo, ih, Event.given?]
      cases c.given? logger <;> rfl
    | ask n =>
      rw [Event.applyTo, own_ask, ih]
      rfl

theorem linked_ask (h : s.loggers.Linked) (n : Name) : (s.ask n).loggers.Linked := by
  unfold ask
  split
  · exact h
  · next hn => exact Loggers.linked_ask h ((Bool.not_eq_true _).mp hn)

theorem linked_setLevel (h : s.loggers.Linked) (n : Name) (level : Level) :
    (s.setLevel n level).loggers.Linked := by
  unfold setLevel
  split
  · exact h
  · next hn => exact Loggers.linked_setLevel (Loggers.linked_ask h
      ((Bool.not_eq_true _).mp hn)) n level

theorem linked_after (events : List Event) : (after events).loggers.Linked := by
  induction events using List.reverseRecOn with
  | nil => exact Loggers.linked_empty
  | append_singleton events e ih =>
    rw [after_concat]
    cases e with
    | ask n => exact linked_ask ih n
    | configure c =>
      rw [Event.applyTo, applyTo_eq]
      cases levelOf c.level with
      | error e => exact ih
      | ok level =>
        have hroot : Loggers.Linked
            { (after events).setLevel root level with
              handlers := [⟨c.stream, .ofName c.format⟩] }.loggers := linked_setLevel ih root level
        exact setLevels_preserves (P := fun t => t.loggers.Linked) (fun t n h => linked_ask h n)
          (fun t n level h => linked_setLevel h n level) _ hroot

/-! ### The level that counts -/

theorem settled_iff : s.settled n = true ↔ isRoot n = false ∧ s.own n ≠ 0 := by
  simp only [settled, Bool.and_eq_true, Bool.not_eq_true', decide_eq_true_eq]

/-- The level that counts is the one that its logger has itself. -/
theorem own_decider (h : s.loggers.Linked) (hplain : Plain logger) :
    s.effectiveLevel logger = s.own (s.decider logger) := by
  unfold decider effectiveLevel
  cases hroot : isRoot logger with
  | true => exact (own_of_root (isRoot_iff.mpr rfl) s).symm
  | false =>
    have hlinked := Loggers.linked_ask h hroot
    have hthere : Loggers.isLogger (s.loggers.ask logger) logger = true :=
      (Loggers.isLogger_ask _ logger logger).mpr (.inl rfl)
    have hline : Loggers.lineage (s.loggers.ask logger) logger =
        (logger :: above logger).filter (Loggers.isLogger (s.loggers.ask logger)) := by
      rw [hlinked.lineage_eq hplain hthere, List.filter_cons_of_pos hthere]
    -- Where there is no logger there is no level, and the root is not among these loggers.
    have hsettled : (fun n => decide (Loggers.isLogger (s.loggers.ask logger) n = true ∧
        decide (s.loggers.level n ≠ 0) = true)) = s.settled := by
      funext n
      rw [Bool.eq_iff_iff, settled_iff, decide_eq_true_eq, decide_eq_true_eq]
      constructor
      · rintro ⟨hn, hlevel⟩
        have hordinary := hlinked.ordinary n hn
        exact ⟨hordinary, by rwa [own_of_ordinary hordinary]⟩
      · rintro ⟨hordinary, hlevel⟩
        rw [own_of_ordinary hordinary] at hlevel
        refine ⟨?_, hlevel⟩
        rw [← Bool.not_eq_false]
        intro hnone
        rw [← Loggers.level_ask _ logger] at hlevel
        exact hlevel (Loggers.level_eq_zero hnone)
    have hlevels : Loggers.level (s.loggers.ask logger) = s.loggers.level :=
      funext fun n => Loggers.level_ask _ logger n
    simp only [Bool.false_eq_true, if_false]
    rw [hline, hlevels, List.find?_map, List.find?_filter]
    simp only [Function.comp_apply]
    rw [hsettled]
    cases hfind : (logger :: above logger).find? s.settled with
    | none => exact (own_of_root (isRoot_iff.mpr (by decide)) s).symm
    | some n =>
      obtain ⟨hn, -⟩ := settled_iff.mp (List.find?_some hfind)
      exact (own_of_ordinary hn s).symm

theorem decider_cases (s : Setup) (logger : Name) :
    s.decider logger = root ∨ s.settled (s.decider logger) = true := by
  unfold decider
  split
  · exact .inl rfl
  · cases hfind : (logger :: above logger).find? s.settled with
    | none => exact .inl rfl
    | some n => exact .inr (List.find?_some hfind)

/-- Levels that are left out have no part in the decision as long as the one that counts stays. -/
theorem decider_eq (hsub : ∀ n, t.settled n = true → s.settled n = true)
    (hcounts : t.own (s.decider logger) = s.own (s.decider logger)) :
    t.decider logger = s.decider logger := by
  unfold decider at hcounts ⊢
  cases hlogger : isRoot logger with
  | true => rfl
  | false =>
    rw [hlogger] at hcounts
    cases hfind : (logger :: above logger).find? s.settled with
    | none =>
      rw [List.find?_eq_none] at hfind
      have hnone : (logger :: above logger).find? t.settled = none :=
        List.find?_eq_none.mpr fun n hn hsome => hfind n hn (hsub n hsome)
      simp [hnone]
    | some n =>
      rw [hfind] at hcounts
      -- The loggers before the one that counts have no level there, and so none here.
      obtain ⟨hn, front, back, hsplit, hfront⟩ := List.find?_eq_some_iff_append.mp hfind
      have hsome : (logger :: above logger).find? t.settled = some n := by
        refine List.find?_eq_some_iff_append.mpr ⟨?_, front, back, hsplit, fun m hm => ?_⟩
        · obtain ⟨hordinary, hne⟩ := settled_iff.mp hn
          exact settled_iff.mpr ⟨hordinary, hcounts ▸ hne⟩
        · cases hm' : t.settled m with
          | false => rfl
          | true => simpa [hsub m hm'] using hfront m hm
      simp [hsome]

theorem given?_root (haccepted : c.Accepted) (hroot : isRoot logger = true) :
    ∃ level, c.given? logger = some level := by
  obtain ⟨level, hlevel⟩ := haccepted
  have hname : canonical (nameOf rootName) = canonical logger :=
    (isRoot_iff.mp (by decide)).trans (isRoot_iff.mp hroot).symm
  rw [Call.given?, levelAmong?, hlevel]
  cases levelAmong? logger c.loggerLevels with
  | none => exact ⟨level, by simp [hname]⟩
  | some later => exact ⟨later, by simp⟩

/-- A call, and then only questions. -/
theorem after_call (earlier : List Event) (c : Call) (asked : List Name) (logger : Name) :
    (after (earlier ++ .configure c :: asked.map .ask)).own logger =
        (c.applyTo (after earlier)).own logger ∧
      (after (earlier ++ .configure c :: asked.map .ask)).handlers =
        (c.applyTo (after earlier)).handlers := by
  induction asked using List.reverseRecOn with
  | nil =>
    rw [List.map_nil, after_concat]
    exact ⟨rfl, rfl⟩
  | append_singleton asked n ih =>
    have hsplit : earlier ++ .configure c :: (asked ++ [n]).map .ask =
        (earlier ++ .configure c :: asked.map .ask) ++ [.ask n] := by simp
    rw [hsplit, after_concat, Event.applyTo, own_ask, handlers_ask]
    exact ih

/-- After a call that is not refused only levels that calls gave are left. -/
theorem own_after_call (haccepted : c.Accepted) (earlier : List Event) (asked : List Name)
    (logger : Name) :
    (after (earlier ++ .configure c :: asked.map .ask)).own logger =
      ((c.given? logger).or (lastGiven? earlier logger)).getD 0 := by
  rw [(after_call earlier c asked logger).1, own_applyTo, own_after]
  cases hgiven : c.given? logger with
  | some level => rfl
  | none =>
    have hroot : isRoot logger = false := by
      rw [← Bool.not_eq_true]
      intro hroot
      obtain ⟨level, hlevel⟩ := given?_root haccepted hroot
      simp [hgiven] at hlevel
    rw [own_of_ordinary hroot]
    cases lastGiven? earlier logger <;> rfl

theorem own_after_alone (haccepted : c.Accepted) (logger : Name) :
    (after [.configure c]).own logger = (c.given? logger).getD 0 := by
  have hown := own_after_call haccepted [] [] logger
  cases hgiven : c.given? logger <;> simpa [hgiven, lastGiven?] using hown

/-- Where the last call gave the level that counts, it is as if there had been no other call. -/
theorem effectiveLevel_after_call (haccepted : c.Accepted) (hplain : Plain logger)
    (hgiven : c.given?
      ((after (earlier ++ .configure c :: asked.map .ask)).decider logger) ≠ none) :
    (after (earlier ++ .configure c :: asked.map .ask)).effectiveLevel logger =
      (after [.configure c]).effectiveLevel logger := by
  have hown := own_after_call haccepted earlier asked
  rw [own_decider (linked_after _) hplain, own_decider (linked_after _) hplain]
  generalize after (earlier ++ .configure c :: asked.map .ask) = s at hgiven hown ⊢
  obtain ⟨level, hlevel⟩ := Option.ne_none_iff_exists'.mp hgiven
  have hcounts : (after [.configure c]).own (s.decider logger) = s.own (s.decider logger) := by
    rw [own_after_alone haccepted, hown, hlevel]
    rfl
  have hsub : ∀ n, (after [.configure c]).settled n = true → s.settled n = true := by
    intro n hn
    obtain ⟨hordinary, hne⟩ := settled_iff.mp hn
    rw [own_after_alone haccepted] at hne
    refine settled_iff.mpr ⟨hordinary, ?_⟩
    rw [hown]
    cases hn' : c.given? n with
    | none => simp [hn'] at hne
    | some level => simpa [hn'] using hne
  rw [decider_eq hsub hcounts, hcounts]

/-- After any calls the last one decides. There is one handler, and it is the one that this call
brings, so that it alone settles where and how records are written. A logger has the level that
this call gives it, or else the one that an earlier call left. The level that counts for a record
is that of the nearest logger with a level other than zero, or of the root. If the last call gave
it, the record makes the lines that it would make if no other call had been made; in particular
this is so for all records if the call names every logger that an earlier call gave a level. If
not, the level that counts is what the last of the earlier calls naming that logger gave it. All
this is so whatever other loggers have been asked for, before or after. -/
theorem last_call_decides (earlier : List Event) (c : Call) (asked : List Name)
    (haccepted : c.Accepted) (r : Record) (hplain : Plain r.logger.units) :
    let s := after (earlier ++ .configure c :: asked.map .ask)
    let alone := after [.configure c]
    s.handlers = [⟨c.stream, .ofName c.format⟩] ∧ alone.handlers = s.handlers ∧
    (∀ logger, s.own logger = ((c.given? logger).or (lastGiven? earlier logger)).getD 0) ∧
    s.effectiveLevel r.logger.units = s.own (s.decider r.logger.units) ∧
    (c.given? (s.decider r.logger.units) ≠ none → s.write r = alone.write r) ∧
    ((∀ logger, lastGiven? earlier logger ≠ none → c.given? logger ≠ none) →
      s.write r = alone.write r) ∧
    (c.given? (s.decider r.logger.units) = none →
      lastGiven? earlier (s.decider r.logger.units) = some (s.effectiveLevel r.logger.units)) := by
  intro s alone
  have hhandlers : s.handlers = [⟨c.stream, .ofName c.format⟩] :=
    (after_call earlier c asked []).2.trans (handlers_applyTo haccepted _)
  have halone : alone.handlers = s.handlers := (handlers_applyTo haccepted _).trans hhandlers.symm
  have hcounts : s.effectiveLevel r.logger.units = s.own (s.decider r.logger.units) :=
    own_decider (linked_after _) hplain
  have hown : ∀ logger, s.own logger = ((c.given? logger).or (lastGiven? earlier logger)).getD 0 :=
    own_after_call haccepted earlier asked
  have hwrite : c.given? (s.decider r.logger.units) ≠ none → s.write r = alone.write r :=
      fun hgiven => by
    have hlevel : s.effectiveLevel r.logger.units = alone.effectiveLevel r.logger.units :=
      effectiveLevel_after_call haccepted hplain hgiven
    rw [write, write, emits, emits, hlevel, halone]
  have hleft : c.given? (s.decider r.logger.units) = none →
      lastGiven? earlier (s.decider r.logger.units) = some (s.effectiveLevel r.logger.units) :=
        fun hnone => by
    rcases decider_cases s r.logger.units with hroot | hsettled
    · obtain ⟨level, hlevel⟩ := given?_root haccepted (by decide : isRoot root = true)
      rw [hroot, hlevel] at hnone
      simp at hnone
    · have hlevel := (settled_iff.mp hsettled).2
      rw [hcounts]
      rw [hown, hnone, Option.none_or] at hlevel ⊢
      cases hlast : lastGiven? earlier (s.decider r.logger.units) with
      | none => simp [hlast] at hlevel
      | some level => rfl
  refine ⟨hhandlers, halone, hown, hcounts, hwrite, fun hnamed => ?_, hleft⟩
  by_cases hgiven : c.given? (s.decider r.logger.units) = none
  · exact absurd hgiven (hnamed _ (by rw [hleft hgiven]; simp))
  · exact hwrite hgiven

/-- Of two loggers with levels from an earlier call one is named again and one is not. -/
theorem last_call_decides_namedAgain :
    let earlier : List Event :=
      [.configure ⟨"ERROR", "json", [("a", "DEBUG"), ("b.c", "ERROR")], 1⟩, .ask (nameOf "b.c.d")]
    let c : Call := ⟨"warning", "text", [("root", "notset"), ("a", "info")], 2⟩
    let r : Record := ⟨0, 0, info, .plain "a.x", .plain "m", none, []⟩
    let s := after (earlier ++ .configure c :: [nameOf "b"].map .ask)
    c.Accepted ∧ Plain r.logger.units ∧ s.handlers = [⟨2, .text⟩] ∧ s.own root = 0 ∧
      c.given? (s.decider (nameOf "a.x")) ≠ none ∧ s.write r = (after [.configure c]).write r ∧
      c.given? (s.decider (nameOf "b.c.d")) = none ∧ s.effectiveLevel (nameOf "b.c.d") = 40 := by
  intro earlier c r s
  have haccepted : c.Accepted := by decide
  have hplain : Plain r.logger.units := by decide
  have hnamed : c.given? (s.decider (nameOf "a.x")) ≠ none := by decide
  have hleft : c.given? (s.decider (nameOf "b.c.d")) = none := by decide
  obtain ⟨hhandlers, -, hown, -, hwrite, -, -⟩ :=
    last_call_decides earlier c [nameOf "b"] haccepted r hplain
  obtain ⟨-, -, -, -, -, -, hlevel⟩ := last_call_decides earlier c [nameOf "b"] haccepted
    ⟨0, 0, info, .plain "b.c.d", .plain "m", none, []⟩ (by decide)
  refine ⟨haccepted, hplain, hhandlers, (hown root).trans (by decide), hnamed,
    hwrite hnamed, hleft, ?_⟩
  have hforty : lastGiven? earlier (s.decider (nameOf "b.c.d")) = some 40 := by decide
  exact Option.some.inj ((hlevel hleft).symm.trans hforty)

/-- With two dots side by side in a name the loggers above it depend on those that earlier calls
named without giving them a level. -/
example :
    let named : Call := ⟨"INFO", "text", [("a.", "NOTSET")], 0⟩
    let c : Call := ⟨"INFO", "text", [("a", "ERROR")], 0⟩
    (after [.configure named, .configure c]).emits (nameOf "a..b") info = false ∧
      (after [.configure c]).emits (nameOf "a..b") info = true := by decide

/-- A logger is not put below a new one whose name begins the name of the root. -/
example :
    let named : Call := ⟨"INFO", "text", [("r.x", "NOTSET")], 0⟩
    let c : Call := ⟨"INFO", "text", [("r", "ERROR")], 0⟩
    (after [.configure named, .configure c]).emits (nameOf "r.x") info = true ∧
      (after [.configure c]).emits (nameOf "r.x") info = false := by decide

/-- A level that an earlier call gave outlives a later call that does not name its logger. -/
theorem level_outlives_call :
    ¬ ∀ (earlier : List Call) (c : Call) (logger : Name) (level : Level),
      (after ((earlier ++ [c]).map .configure)).emits logger level =
        (after [.configure c]).emits logger level := by
  intro h
  have hsame := h [⟨"INFO", "text", [("a", "ERROR")], 0⟩] ⟨"INFO", "text", [], 0⟩ (nameOf "a") info
  revert hsame
  decide

end Depot.Logging.Setup
