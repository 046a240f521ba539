import Depot.Channel.Registry
import Depot.Proofs.Action
import Depot.Proofs.OrderedMap
import Mathlib.Data.List.Induction
import Mathlib.Data.List.Nodup
import Mathlib.Data.List.Sort

/-!
The life of backends that are shared by name. Each one is registered from the moment it is
made until its name is removed, and a removal begins to close it. A round of closes ends with
the first that fails. By then the registry has forgotten every name, and nothing closes the
backends behind that one any more.
-/
namespace Depot.Channel.Registry

inductive Request
  | getOrCreate (name : String)
  | lookUp (name : String)
  | listNames
  | dispose (name : String) (closing : BackendId → Except Fault Unit)
  | close (closing : BackendId → Except Fault Unit)

inductive Reply
  | backend (b : BackendId)
  | found (b? : Option BackendId)
  | names (names : List String)
  | done
  deriving DecidableEq

namespace Request

def act : Request → Action Registry Reply
  | .getOrCreate name => do
    let r ← get
    set (r.getOrCreate name).2
    return .backend (r.getOrCreate name).1
  | .lookUp name => do return .found ((← get).get? name)
  | .listNames => do return .names (← get).names
  | .dispose name closing => do
    Registry.dispose closing name
    return .done
  | .close closing => do
    Registry.close closing
    return .done

def answer (q : Request) (r : Registry) : Except Fault Reply := (q.act.runFrom r).1

def apply (q : Request) (r : Registry) : Registry := (q.act.runFrom r).2

def asks (name : String) : Request → Bool
  | .getOrCreate n => n = name
  | _ => false

def removes (name : String) : Request → Bool
  | .dispose n _ => n = name
  | .close _ => true
  | _ => false

end Request

def after (past : List Request) : Registry := past.foldl (fun r q => q.apply r) .empty

def madeFor (name : String) : Registry → List Request → Nat
  | _, [] => 0
  | r, q :: rest =>
    (if q.asks name then (q.apply r).made - r.made else 0) + madeFor name (q.apply r) rest

/-- A backend for which the registry had a close of all backends, which failed at one that was
registered before it. -/
def Forgotten (past : List Request) (b : BackendId) : Prop :=
  ∃ before closing rest first fault, past = before ++ .close closing :: rest ∧
    [first, b].Sublist (after before).registered.values ∧ closing first = .error fault

variable {r : Registry} {past rest : List Request} {q : Request} {name : String}
  {closing : BackendId → Except Fault Unit} {b : BackendId}

/-! ### What one request does -/

def reached (closing : BackendId → Except Fault Unit) (bs : List BackendId) : List BackendId :=
  bs.takeWhile (fun b => (closing b).isOk) ++ (bs.dropWhile fun b => (closing b).isOk).take 1

def behind (closing : BackendId → Except Fault Unit) (bs : List BackendId) : List BackendId :=
  (bs.dropWhile fun b => (closing b).isOk).drop 1

theorem reached_append_behind (closing : BackendId → Except Fault Unit) (bs : List BackendId) :
    reached closing bs ++ behind closing bs = bs := by
  rw [reached, behind, List.append_assoc, List.take_append_drop, List.takeWhile_append_dropWhile]

/-- A backend is behind a failure exactly when one before it fails to close. -/
theorem mem_behind_iff {bs : List BackendId} :
    b ∈ behind closing bs ↔ ∃ first fault, [first, b].Sublist bs ∧
      closing first = .error fault := by
  unfold behind
  induction bs with
  | nil => simp
  | cons head tail ih =>
    cases hhead : closing head with
    | ok _ =>
      rw [List.dropWhile_cons_of_pos (by simp [hhead, Except.isOk, Except.toBool]), ih]
      refine exists₂_congr fun first fault => and_congr_left fun hfirst => ?_
      have hne : first ≠ head := by
        rintro rfl
        rw [hhead] at hfirst
        cases hfirst
      simp [List.cons_sublist_cons', hne]
    | error fault =>
      rw [List.dropWhile_cons_of_neg (by simp [hhead, Except.isOk, Except.toBool])]
      simp only [List.drop_succ_cons, List.drop_zero]
      constructor
      · intro hb
        exact ⟨head, fault, (List.singleton_sublist.mpr hb).cons_cons head, hhead⟩
      · rintro ⟨first, _, hsub, _⟩
        exact List.singleton_sublist.mp hsub.of_cons_cons

/-- A round of closes answers with the first failure. -/
theorem runFrom_closeAll (bs : List BackendId) (r : Registry) :
    (closeAll closing bs).runFrom r =
      (forM bs closing, { r with closes := r.closes ++ reached closing bs }) := by
  induction bs generalizing r with
  | nil =>
    change (Except.ok (), r) = _
    simp [reached, pure, Except.pure]
  | cons head tail ih =>
    rw [List.forM_cons]
    cases hhead : closing head with
    | ok _ =>
      have hrun : (closeAll closing (head :: tail)).runFrom r =
          (closeAll closing tail).runFrom { r with closes := r.closes ++ [head] } := by
        simp only [closeAll, hhead]
        rfl
      have hreached : reached closing (head :: tail) = head :: reached closing tail := by
        simp [reached, hhead, Except.isOk, Except.toBool]
      simp only [hrun, ih, hreached, List.append_assoc, List.singleton_append]
      rfl
    | error e =>
      have hrun : (closeAll closing (head :: tail)).runFrom r =
          (.error e, { r with closes := r.closes ++ [head] }) := by
        simp only [closeAll, hhead]
        rfl
      have hreached : reached closing (head :: tail) = [head] := by
        simp [reached, hhead, Except.isOk, Except.toBool]
      rw [hrun, hreached]
      rfl

theorem apply_getOrCreate_of_some (h : r.registered.get? name = some b) :
    (Request.getOrCreate name).apply r = r := by
  change (r.getOrCreate name).2 = r
  rw [getOrCreate, h]

theorem apply_getOrCreate_of_none (h : r.registered.get? name = none) :
    (Request.getOrCreate name).apply r =
      { r with registered := r.registered.insert name r.made, made := r.made + 1 } := by
  change (r.getOrCreate name).2 = _
  rw [getOrCreate, h]

theorem apply_dispose_of_none (h : r.registered.get? name = none) :
    (Request.dispose name closing).apply r = r := by
  simp [Request.apply, Request.act, dispose, Action.runFrom_bind, h]

theorem apply_dispose_of_some (h : r.registered.get? name = some b) :
    (Request.dispose name closing).apply r =
      { r with registered := r.registered.erase name, closes := r.closes ++ [b] } := by
  simp only [Request.apply, Request.act, dispose, Action.runFrom_bind, Action.runFrom_get, h,
    Action.runFrom_set, runFrom_closeAll]
  have hreached : reached closing [b] = [b] := by
    cases hb : closing b <;> simp [reached, hb, Except.isOk, Except.toBool]
  cases forM [b] closing <;> simp [hreached]

theorem apply_close :
    (Request.close closing).apply r =
      { r with
        registered := .empty
        closes := r.closes ++ reached closing r.registered.values } := by
  simp only [Request.apply, Request.act, close, Action.runFrom_bind, Action.runFrom_get,
    Action.runFrom_set, runFrom_closeAll]
  cases forM r.registered.values closing <;> simp

/-! ### What becomes of a name -/

/-- A name stays with its backend while it is not removed. -/
theorem get?_apply_of_some (hkept : q.removes name = false)
    (h : r.registered.get? name = some b) : (q.apply r).registered.get? name = some b := by
  cases q with
  | getOrCreate other =>
    cases hother : r.registered.get? other with
    | some _ => rwa [apply_getOrCreate_of_some hother]
    | none =>
      have hne : name ≠ other := by
        rintro rfl
        rw [h] at hother
        cases hother
      rw [apply_getOrCreate_of_none hother, OrderedMap.get?_insert, if_neg hne, h]
  | lookUp => exact h
  | listNames => exact h
  | dispose other closing =>
    have hne : name ≠ other := fun heq => by simp [Request.removes, heq] at hkept
    cases hother : r.registered.get? other with
    | none => rwa [apply_dispose_of_none hother]
    | some _ => rw [apply_dispose_of_some hother, OrderedMap.get?_erase, if_neg hne, h]
  | close => simp [Request.removes] at hkept

/-- A name that is not registered stays so until its backend is asked for. -/
theorem get?_apply_of_none (hasked : q.asks name = false)
    (h : r.registered.get? name = none) : (q.apply r).registered.get? name = none := by
  cases q with
  | getOrCreate other =>
    have hne : name ≠ other := fun heq => by simp [Request.asks, heq] at hasked
    cases hother : r.registered.get? other with
    | some _ => rwa [apply_getOrCreate_of_some hother]
    | none => rw [apply_getOrCreate_of_none hother, OrderedMap.get?_insert, if_neg hne, h]
  | lookUp => exact h
  | listNames => exact h
  | dispose other closing =>
    cases hother : r.registered.get? other with
    | none => rwa [apply_dispose_of_none hother]
    | some _ => rw [apply_dispose_of_some hother, OrderedMap.get?_erase, h, ite_self]
  | close => rw [apply_close, OrderedMap.get?_empty]

theorem get?_apply_of_removes (h : q.removes name = true) :
    (q.apply r).registered.get? name = none := by
  cases q with
  | dispose other closing =>
    obtain rfl : other = name := by simpa [Request.removes] using h
    cases hother : r.registered.get? other with
    | none => rwa [apply_dispose_of_none hother]
    | some _ => rw [apply_dispose_of_some hother, OrderedMap.get?_erase, if_pos rfl]
  | close => rw [apply_close, OrderedMap.get?_empty]
  | _ => simp [Request.removes] at h

/-- After a request for its backend a name is registered. -/
theorem answer_getOrCreate (r : Registry) (name : String) :
    ∃ b, (Request.getOrCreate name).answer r = .ok (.backend b) ∧
      ((Request.getOrCreate name).apply r).registered.get? name = some b := by
  cases h : r.registered.get? name with
  | some b =>
    refine ⟨b, ?_, by rwa [apply_getOrCreate_of_some h]⟩
    change Except.ok (Reply.backend (r.getOrCreate name).1) = _
    rw [getOrCreate, h]
  | none =>
    refine ⟨r.made, ?_, ?_⟩
    · change Except.ok (Reply.backend (r.getOrCreate name).1) = _
      rw [getOrCreate, h]
    · rw [apply_getOrCreate_of_none h, OrderedMap.get?_insert, if_pos rfl]

theorem get?_foldl_of_some (hkept : ∀ q ∈ rest, q.removes name = false)
    (h : r.registered.get? name = some b) :
    (rest.foldl (fun r q => q.apply r) r).registered.get? name = some b := by
  induction rest generalizing r with
  | nil => exact h
  | cons q rest ih =>
    have htail := fun x hx => hkept x (List.mem_cons_of_mem q hx)
    exact ih htail (get?_apply_of_some (hkept q List.mem_cons_self) h)

/-- Nothing is made for a name that stays registered. -/
theorem madeFor_of_some (hkept : ∀ q ∈ rest, q.removes name = false)
    (h : r.registered.get? name = some b) : madeFor name r rest = 0 := by
  induction rest generalizing r with
  | nil => rfl
  | cons q rest ih =>
    have htail := fun x hx => hkept x (List.mem_cons_of_mem q hx)
    have hq : (if q.asks name then (q.apply r).made - r.made else 0) = 0 := by
      split
      · next hasks =>
        cases q with
        | getOrCreate other =>
          obtain rfl : other = name := by simpa [Request.asks] using hasks
          rw [apply_getOrCreate_of_some h, Nat.sub_self]
        | _ => simp [Request.asks] at hasks
      · rfl
    rw [madeFor, hq, ih htail (get?_apply_of_some (hkept q List.mem_cons_self) h)]

/-- One backend is made for a name that is asked for and was not registered. -/
theorem madeFor_of_none (hkept : ∀ q ∈ rest, q.removes name = false)
    (h : r.registered.get? name = none) :
    madeFor name r rest = if rest.any (·.asks name) then 1 else 0 := by
  induction rest generalizing r with
  | nil => rfl
  | cons q rest ih =>
    have htail := fun x hx => hkept x (List.mem_cons_of_mem q hx)
    cases hasks : q.asks name with
    | false =>
      rw [madeFor, ih htail (get?_apply_of_none hasks h)]
      simp [hasks]
    | true =>
      cases q with
      | getOrCreate other =>
        obtain rfl : other = name := by simpa [Request.asks] using hasks
        obtain ⟨b, _, hb⟩ := answer_getOrCreate r other
        rw [madeFor, madeFor_of_some htail hb, apply_getOrCreate_of_none h]
        simp [hasks]
      | _ => simp [Request.asks] at hasks

/-! ### What becomes of a backend -/

/-- Every backend that was made is registered, closed or lost, in just one of these ways and
only once. -/
def Account (r : Registry) (lost : List BackendId) : Prop :=
  ∀ b, r.registered.values.count b + r.closes.count b + lost.count b = if b < r.made then 1 else 0

def Request.loses (r : Registry) : Request → List BackendId
  | .close closing => behind closing r.registered.values
  | _ => []

theorem account_apply {lost : List BackendId} (h : r.Account lost) (q : Request) :
    (q.apply r).Account (lost ++ q.loses r) := by
  intro b
  have hb := h b
  rw [List.count_append]
  cases q with
  | getOrCreate name =>
    cases hname : r.registered.get? name with
    | some _ =>
      rw [apply_getOrCreate_of_some hname]
      exact hb
    | none =>
      have hvalues :
          (r.registered.insert name r.made).values = r.registered.values ++ [r.made] := by
        simp [OrderedMap.values, OrderedMap.entries_insert_of_new hname]
      have hmade : (if b < r.made + 1 then 1 else 0) =
          (if b < r.made then 1 else 0) + if r.made = b then 1 else 0 := by
        rcases Nat.lt_trichotomy b r.made with hlt | rfl | hgt
        · rw [if_pos hlt, if_pos (Nat.lt_succ_of_lt hlt), if_neg (Nat.ne_of_gt hlt)]
        · simp
        · have hnot : ¬ b < r.made + 1 := Nat.not_lt.mpr (Nat.succ_le_of_lt hgt)
          rw [if_neg hnot, if_neg (Nat.lt_asymm hgt), if_neg (Nat.ne_of_lt hgt)]
      rw [apply_getOrCreate_of_none hname]
      simp only [hvalues, List.count_append, List.count_singleton, Request.loses, List.count_nil,
        beq_iff_eq, hmade]
      omega
  | lookUp => exact hb
  | listNames => exact hb
  | dispose name closing =>
    cases hname : r.registered.get? name with
    | none =>
      rw [apply_dispose_of_none hname]
      exact hb
    | some c =>
      have hvalues := (OrderedMap.values_erase_perm hname).count_eq b
      rw [List.count_cons] at hvalues
      rw [apply_dispose_of_some hname]
      simp only [List.count_append, List.count_singleton, Request.loses, List.count_nil]
      omega
  | close closing =>
    have hvalues := congrArg (List.count b)
      (reached_append_behind closing r.registered.values)
    rw [List.count_append] at hvalues
    rw [apply_close]
    simp only [OrderedMap.values, OrderedMap.empty, List.map_nil, List.count_nil,
      List.count_append, Request.loses] at hvalues hb ⊢
    omega

def lost : Registry → List Request → List BackendId
  | _, [] => []
  | r, q :: rest => q.loses r ++ lost (q.apply r) rest

theorem account_foldl {before : List BackendId} (h : r.Account before) (rest : List Request) :
    (rest.foldl (fun r q => q.apply r) r).Account (before ++ lost r rest) := by
  induction rest generalizing r before with
  | nil => simpa [lost] using h
  | cons q rest ih =>
    have htail := ih (account_apply h q)
    rwa [List.append_assoc] at htail

theorem mem_lost_iff : b ∈ lost r past ↔
    ∃ before q rest, past = before ++ q :: rest ∧
      b ∈ q.loses (before.foldl (fun r q => q.apply r) r) := by
  induction past generalizing r with
  | nil => simp [lost]
  | cons q rest ih =>
    rw [lost, List.mem_append, ih]
    constructor
    · rintro (hq | ⟨before, q', rest', rfl, hb⟩)
      · exact ⟨[], q, rest, rfl, hq⟩
      · exact ⟨q :: before, q', rest', rfl, hb⟩
    · rintro ⟨before, q', rest', hpast, hb⟩
      cases before with
      | nil =>
        obtain ⟨rfl, rfl⟩ := List.cons.inj hpast
        exact Or.inl hb
      | cons first before =>
        obtain ⟨rfl, rfl⟩ := List.cons.inj hpast
        exact Or.inr ⟨before, q', rest', rfl, hb⟩

theorem mem_lost_iff_forgotten : b ∈ lost .empty past ↔ Forgotten past b := by
  rw [mem_lost_iff]
  constructor
  · rintro ⟨before, q, rest, hpast, hb⟩
    cases q with
    | close closing =>
      obtain ⟨first, fault, hsub, hfirst⟩ := mem_behind_iff.mp hb
      exact ⟨before, closing, rest, first, fault, hpast, hsub, hfirst⟩
    | _ => exact absurd hb List.not_mem_nil
  · rintro ⟨before, closing, rest, first, fault, hpast, hsub, hfirst⟩
    exact ⟨before, .close closing, rest, hpast, mem_behind_iff.mpr ⟨first, fault, hsub, hfirst⟩⟩

theorem mem_values_iff : b ∈ r.registered.values ↔ ∃ name, r.get? name = some b := by
  simp only [OrderedMap.values, List.mem_map, Prod.exists, exists_eq_right, get?,
    OrderedMap.get?_eq_some_iff]

theorem account_after (past : List Request) : (after past).Account (lost .empty past) := by
  have hempty : Registry.empty.Account [] := fun b => rfl
  exact account_foldl hempty past

/-- What is registered is not closed. -/
theorem not_closed_of_get? (h : (after past).get? name = some b) : b ∉ (after past).closes := by
  have hcount := account_after past b
  have hregistered := List.count_pos_iff.mpr (mem_values_iff.mpr ⟨name, h⟩)
  rw [← List.count_eq_zero]
  split at hcount <;> omega

/-! ### The lifecycle -/

theorem names_sorted (r : Registry) : r.names.Pairwise (· < ·) := by
  have hsorted : r.names.Pairwise (fun a b => decide (a ≤ b) = true) := by
    refine List.pairwise_mergeSort (fun a b c hab hbc => ?_) (fun a b => ?_) _
    · exact decide_eq_true (String.le_trans (of_decide_eq_true hab) (of_decide_eq_true hbc))
    · simpa using String.le_total a b
  have hnodup : r.names.Nodup := (List.mergeSort_perm _ _).nodup_iff.mpr r.registered.nodup
  exact (hsorted.and hnodup).imp fun h => Std.lt_of_le_of_ne (of_decide_eq_true h.1) h.2

theorem mem_names_iff : name ∈ r.names ↔ ∃ b, r.get? name = some b := by
  rw [names, List.mem_mergeSort, OrderedMap.mem_keys_iff, get?]

/-- What holds after requests to a registry, failed ones among them, and from there on. -/
structure Lifecycle (past : List Request) : Prop where
  /-- Between two removals of a name one backend is made for it, if it is asked for at all. -/
  once : ∀ name rest, (∀ q ∈ past.getLast?, q.removes name = true) →
    (∀ q ∈ rest, q.removes name = false) →
    madeFor name (after past) rest = if rest.any (·.asks name) then 1 else 0
  /-- A backend that is found under a name is the one that a request for it answers. -/
  found : ∀ name b, (Request.lookUp name).answer (after past) = .ok (.found (some b)) →
    (Request.getOrCreate name).answer (after past) = .ok (.backend b)
  /-- Until the name is removed, every request answers the same backend, and it is open. -/
  lasting : ∀ name b rest, (Request.getOrCreate name).answer (after past) = .ok (.backend b) →
    (∀ q ∈ rest, q.removes name = false) →
    (Request.lookUp name).answer (after (past ++ .getOrCreate name :: rest)) =
        .ok (.found (some b)) ∧
      (Request.getOrCreate name).answer (after (past ++ .getOrCreate name :: rest)) =
        .ok (.backend b) ∧
      b ∉ (after (past ++ .getOrCreate name :: rest)).closes
  names : ∃ shown, Request.listNames.answer (after past) = .ok (.names shown) ∧
    shown.Pairwise (· < ·) ∧
    ∀ name, name ∈ shown ↔ ∃ b, (Request.lookUp name).answer (after past) = .ok (.found (some b))
  /-- A backend that is not forgotten is either registered or closed once. -/
  accounted : ∀ b < (after past).made, ¬ Forgotten past b →
    (∃ name, (after past).get? name = some b) ∧ b ∉ (after past).closes ∨
    (∀ name, (after past).get? name ≠ some b) ∧ (after past).closes.count b = 1
  /-- A forgotten backend is never closed. -/
  forgotten : ∀ b, Forgotten past b → b < (after past).made ∧
    (∀ name, (after past).get? name ≠ some b) ∧ b ∉ (after past).closes

theorem answer_lookUp_iff :
    (Request.lookUp name).answer r = .ok (.found (some b)) ↔ r.get? name = some b := by
  constructor
  · intro h
    injection h with h
    injection h
  · intro h
    change Except.ok (Reply.found (r.get? name)) = _
    rw [h]

theorem answer_getOrCreate_of_some (h : r.get? name = some b) :
    (Request.getOrCreate name).answer r = .ok (.backend b) := by
  obtain ⟨c, hanswer, hc⟩ := answer_getOrCreate r name
  rw [apply_getOrCreate_of_some h] at hc
  rw [hanswer, Option.some.inj (hc.symm.trans h)]

theorem get?_none_of_removed (hlast : ∀ q ∈ past.getLast?, q.removes name = true) :
    (after past).get? name = none := by
  rcases List.eq_nil_or_concat' past with rfl | ⟨before, q, rfl⟩
  · rfl
  · rw [after, List.foldl_append]
    exact get?_apply_of_removes (hlast q (by simp))

/-- The lifecycle of backends holds after all requests, whatever closes fail. -/
theorem lifecycle (past : List Request) : Lifecycle past where
  once _ _ hlast hkept := madeFor_of_none hkept (get?_none_of_removed hlast)
  found _ _ hfound := answer_getOrCreate_of_some (answer_lookUp_iff.mp hfound)
  lasting name b rest hanswer hkept := by
    obtain ⟨c, hc, hafter⟩ := answer_getOrCreate (after past) name
    obtain rfl : c = b := by
      rw [hc] at hanswer
      injection hanswer with h
      injection h
    have hlater : (after (past ++ .getOrCreate name :: rest)).get? name = some c := by
      rw [after, List.foldl_append, List.foldl_cons]
      exact get?_foldl_of_some hkept hafter
    exact ⟨answer_lookUp_iff.mpr hlater, answer_getOrCreate_of_some hlater,
      not_closed_of_get? hlater⟩
  names := ⟨(after past).names, rfl, names_sorted _, fun name => by
    simp only [mem_names_iff, answer_lookUp_iff]⟩
  accounted b hb hkept := by
    have hcount := account_after past b
    rw [← mem_lost_iff_forgotten] at hkept
    rw [if_pos hb, List.count_eq_zero_of_not_mem hkept] at hcount
    by_cases hregistered : b ∈ (after past).registered.values
    · obtain ⟨name, hname⟩ := mem_values_iff.mp hregistered
      exact Or.inl ⟨⟨name, hname⟩, not_closed_of_get? hname⟩
    · rw [List.count_eq_zero_of_not_mem hregistered] at hcount
      exact Or.inr ⟨fun name hname => hregistered (mem_values_iff.mpr ⟨name, hname⟩), by omega⟩
  forgotten b hforgotten := by
    have hcount := account_after past b
    have hlost := List.count_pos_iff.mpr (mem_lost_iff_forgotten.mpr hforgotten)
    have hmade : b < (after past).made := by
      by_contra hmade
      rw [if_neg hmade] at hcount
      omega
    rw [if_pos hmade] at hcount
    refine ⟨hmade, fun name hname => ?_, ?_⟩
    · have := List.count_pos_iff.mpr (mem_values_iff.mpr ⟨name, hname⟩)
      omega
    · rw [← List.count_eq_zero]
      omega

/-- A close that fails on its last backend forgets none. -/
theorem lifecycle_lastFails :
    let past : List Request := [.getOrCreate "b", .getOrCreate "a",
      .close fun b => if b = 0 then .ok () else .error .outOfRange]
    Lifecycle past ∧ (Request.lookUp "a").answer (after past) = .ok (.found none) ∧
      (after past).closes = [0, 1] ∧ (after past).made = 2 :=
  ⟨lifecycle _, by decide +kernel, by decide +kernel, by decide +kernel⟩

/-- A close that fails on the first of two backends: the second is neither registered nor
closed. -/
theorem second_forgotten :
    ¬ ∀ (past : List Request) (b : BackendId), b < (after past).made →
      (∃ name, (after past).get? name = some b) ∨ (after past).closes.count b = 1 := by
  intro h
  have hb := h [.getOrCreate "a", .getOrCreate "b", .close fun b =>
    if b = 0 then .error .outOfRange else .ok ()] 1 (by decide +kernel)
  rcases hb with ⟨name, hname⟩ | hcount
  · cases hname
  · exact absurd hcount (by decide +kernel)

end Depot.Channel.Registry
