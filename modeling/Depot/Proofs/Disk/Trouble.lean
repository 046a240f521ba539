import Depot.Proofs.Disk.Refusal
import Depot.Proofs.Disk.Script

/-!
Operations that do not go well. Any look and any call of a script may fail for reasons of its own,
a write may answer that it has taken less than it was given, and the process may stop at any time.
Data are added and trees are removed bit by bit, so a part of this may be done; every other call is
done or not.
-/
namespace Depot.Storage.Disk

inductive Ending (ε α : Type)
  | answered (r : Except ε α)
  | stopped

inductive Tree.Emptied (p : Place) (t : Tree) : Tree → Prop
  | nothing : Emptied p t t
  | more {u : Tree} {q : Place} (h : Emptied p t u) (below : p <+: q) (other : q ≠ p)
      (leaf : u.children q = []) : Emptied p t (u.remove q)

variable {ε ε' α β : Type} {short : Nat → Prop} {t u : Tree} {p : Place} {data content : Bytes}
  {c : Call}

namespace Call

inductive Begun (t : Tree) : Call → Tree → Prop
  | nothing (c : Call) : Begun t c t
  | extend {p : Place} {data : Bytes} {u : Tree} (n : Nat)
      (part : t.add p (data.take n) = .ok u) : Begun t (.extend p data) u
  | write {p : Place} {data : Bytes} {u : Tree} (n : Nat)
      (part : t.add p (data.take n) = .ok u) : Begun t (.write p data) u
  | removeTree {p q : Place} {u : Tree} (there : t.locate .itself p = .ok q)
      (part : t.Emptied q u) : Begun t (.removeTree p) u

/-- What a call may come to. The numbers in `short` are counts that a write may answer with. -/
inductive Ends (short : Nat → Prop) (t : Tree) : Call → Ending OsFault Unit → Tree → Prop
  | fairly (c : Call) : Ends short t c (.answered (c.answer t)) (c.step t)
  | short {p : Place} {data : Bytes} {u : Tree} (n : Nat) (hn : short n)
      (part : t.add p (data.take n) = .ok u) : Ends short t (.write p data) (.answered (.ok ())) u
  | failed {c : Call} {u : Tree} (begun : Begun t c u) :
      Ends short t c (.answered (.error .outOfOrder)) u
  | stopped {c : Call} {u : Tree} (begun : Begun t c u) : Ends short t c .stopped u

def AtOnce : Call → Prop
  | extend _ _ | write _ _ | removeTree _ => False
  | _ => True

theorem Begun.eq_of_atOnce (h : c.Begun t u) (hc : c.AtOnce) : u = t := by
  cases h with
  | nothing => rfl
  | extend n hpart => exact hc.elim
  | write n hpart => exact hc.elim
  | removeTree hthere hpart => exact hc.elim

/-- A call that is refused has at most been begun. -/
theorem Ends.begun {e : OsFault} (h : c.Ends short t (.answered (.error e)) u) : c.Begun t u := by
  generalize hanswer : Ending.answered (.error e) = ending at h
  cases h with
  | fairly =>
    unfold answer at hanswer
    unfold step
    cases hexec : c.exec t with
    | ok u => simp [hexec, Except.map] at hanswer
    | error e => exact .nothing c
  | short n hn hpart => simp at hanswer
  | failed hbegun => exact hbegun
  | stopped hbegun => exact hbegun

/-- A call that is answered has been done, but for a write that was short. -/
theorem Ends.done (h : c.Ends short t (.answered (.ok ())) u) :
    c.exec t = .ok u ∨
      ∃ p data n, c = .write p data ∧ short n ∧ t.add p (data.take n) = .ok u := by
  generalize hanswer : Ending.answered (.ok ()) = ending at h
  cases h with
  | fairly =>
    left
    unfold answer at hanswer
    unfold step
    cases hexec : c.exec t with
    | ok u => rfl
    | error e => simp [hexec, Except.map] at hanswer
  | short n hn hpart => exact Or.inr ⟨_, _, n, rfl, hn, hpart⟩
  | failed hbegun => simp at hanswer
  | stopped hbegun => simp at hanswer

end Call

/-- What one write may have stored: what the system takes at a time, or less. -/
def Takes (short : Nat → Prop) (data content : Bytes) : Prop :=
  content = stored data ∨ ∃ n, short n ∧ content = data.take n

/-- Where no write is short, data that the system takes at a time are stored whole. -/
theorem Takes.whole (h : Takes short data content) (hfull : ∀ n, ¬ short n)
    (hsmall : data.length ≤ writeLimit) : content = data := by
  rcases h with rfl | ⟨n, hn, -⟩
  · exact stored_of_le hsmall
  · exact absurd hn (hfull n)

namespace Script

inductive Ends (short : Nat → Prop) : Script ε α → Tree → Ending ε α → Tree → Prop
  | done (r : Except ε α) (t : Tree) : Ends short (done r) t (.answered r) t
  | halted (s : Script ε α) (t : Tree) : Ends short s t .stopped t
  | looked {next : Except OsFault Tree → Script ε α} {t t' : Tree} {ending : Ending ε α}
      (h : Ends short (next (.ok t)) t ending t') : Ends short (look next) t ending t'
  | unseen {next : Except OsFault Tree → Script ε α} {t t' : Tree} {ending : Ending ε α}
      (h : Ends short (next (.error .outOfOrder)) t ending t') : Ends short (look next) t ending t'
  | called {c : Call} {next : Except OsFault Unit → Script ε α} {t u t' : Tree}
      {r : Except OsFault Unit} {ending : Ending ε α} (hc : c.Ends short t (.answered r) u)
      (h : Ends short (next r) u ending t') : Ends short (call c next) t ending t'
  | cut {c : Call} {next : Except OsFault Unit → Script ε α} {t u : Tree}
      (hc : c.Ends short t .stopped u) : Ends short (call c next) t .stopped u

/-- Nothing has to go wrong. -/
theorem ends_fair (s : Script ε α) (t : Tree) :
    s.Ends short t (.answered (s.run t).1) (s.run t).2 := by
  induction s generalizing t with
  | done r => exact .done r t
  | look next ih => exact .looked (ih (.ok t) t)
  | call c next ih => exact .called (.fairly c) (ih (c.answer t) (c.step t))

/-- A process may stop when all has been done. -/
theorem stopped_last (s : Script ε α) (t : Tree) : s.Ends short t .stopped (s.run t).2 := by
  induction s generalizing t with
  | done r => exact .halted _ t
  | look next ih => exact .looked (ih (.ok t) t)
  | call c next ih => exact .called (.fairly c) (ih (c.answer t) (c.step t))

/-- Whatever a script comes to, what is asked of its answer, of a tree that it fails in and of one
that it is stopped in holds. -/
def Always (short : Nat → Prop) (s : Script ε α) (t : Tree) (ok : α → Tree → Prop)
    (error stop : Tree → Prop) : Prop :=
  ∀ ending u, s.Ends short t ending u →
    match ending with
    | .answered (.ok x) => ok x u
    | .answered (.error _) => error u
    | .stopped => stop u

def Keeps (short : Nat → Prop) (P : Tree → Prop) (s : Script ε α) (t : Tree) : Prop :=
  s.Always short t (fun _ => P) P P

section Always

variable {ok ok' : α → Tree → Prop} {error error' stop stop' : Tree → Prop} {s : Script ε α}
  {P : Tree → Prop}

theorem always_ok {x : α} (hok : ok x t) (hstop : stop t) :
    (done (.ok x) : Script ε α).Always short t ok error stop := by
  intro ending u h
  cases h with
  | done => exact hok
  | halted => exact hstop

theorem always_error {e : ε} (herror : error t) (hstop : stop t) :
    (done (.error e) : Script ε α).Always short t ok error stop := by
  intro ending u h
  cases h with
  | done => exact herror
  | halted => exact hstop

theorem always_look {next : Except OsFault Tree → Script ε α} :
    (look next).Always short t ok error stop ↔
      (next (.ok t)).Always short t ok error stop ∧
        (next (.error .outOfOrder)).Always short t ok error stop := by
  constructor
  · exact fun h => ⟨fun ending u hends => h ending u (.looked hends),
      fun ending u hends => h ending u (.unseen hends)⟩
  · rintro ⟨hseen, hunseen⟩ ending u h
    cases h with
    | halted => exact hseen _ _ (.halted _ t)
    | looked h => exact hseen _ _ h
    | unseen h => exact hunseen _ _ h

theorem always_call {next : Except OsFault Unit → Script ε α} :
    (call c next).Always short t ok error stop ↔
      (∀ r u, c.Ends short t (.answered r) u → (next r).Always short u ok error stop) ∧
        ∀ u, c.Begun t u → stop u := by
  constructor
  · exact fun h => ⟨fun r u hc ending u' hends => h ending u' (.called hc hends),
      fun u hc => h .stopped u (.cut (.stopped hc))⟩
  · rintro ⟨hnext, hstop⟩ ending u h
    cases h with
    | halted => exact hstop t (.nothing c)
    | called hc h => exact hnext _ _ hc _ _ h
    | cut hc =>
      cases hc with
      | stopped hbegun => exact hstop u hbegun

namespace Always

theorem start (h : s.Always short t ok error stop) : stop t := h .stopped t (.halted s t)

theorem mono (h : s.Always short t ok error stop) (hok : ∀ x u, ok x u → ok' x u)
    (herror : ∀ u, error u → error' u) (hstop : ∀ u, stop u → stop' u) :
    s.Always short t ok' error' stop' := by
  intro ending u hends
  have hu := h ending u hends
  match ending with
  | .answered (.ok x) => exact hok x u hu
  | .answered (.error e) => exact herror u hu
  | .stopped => exact hstop u hu

theorem keeps (h : s.Always short t ok error stop) (hok : ∀ x u, ok x u → P u)
    (herror : ∀ u, error u → P u) (hstop : ∀ u, stop u → P u) : s.Keeps short P t :=
  h.mono hok herror hstop

theorem ite {P : Prop} [Decidable P] {s' : Script ε α} (h : P → s.Always short t ok error stop)
    (h' : ¬ P → s'.Always short t ok error stop) :
    (if P then s else s').Always short t ok error stop := by
  split
  · next hP => exact h hP
  · next hP => exact h' hP

theorem bind {f : α → Script ε β} {ok' : β → Tree → Prop} (h : s.Always short t ok error stop)
    (hnext : ∀ x u, ok x u → (f x).Always short u ok' error stop) :
    (s >>= f).Always short t ok' error stop := by
  change (s.bind f).Always short t ok' error stop
  induction s generalizing t with
  | done r =>
    cases r with
    | ok x => exact hnext x t (h _ _ (.done _ t))
    | error e => exact always_error (h _ _ (.done _ t)) h.start
  | look next ih =>
    obtain ⟨hseen, hunseen⟩ := always_look.mp h
    exact always_look.mpr ⟨ih _ hseen, ih _ hunseen⟩
  | call c next ih =>
    obtain ⟨hafter, hstop⟩ := always_call.mp h
    exact always_call.mpr ⟨fun r u hc => ih r (hafter r u hc), hstop⟩

theorem tryCatch {f : ε → Script ε α} (h : s.Always short t ok error stop)
    (hnext : ∀ e u, error u → (f e).Always short u ok error' stop) :
    (MonadExcept.tryCatch s f : Script ε α).Always short t ok error' stop := by
  change (s.handle f).Always short t ok error' stop
  induction s generalizing t with
  | done r =>
    cases r with
    | ok x => exact always_ok (h _ _ (.done _ t)) h.start
    | error e => exact hnext e t (h _ _ (.done _ t))
  | look next ih =>
    obtain ⟨hseen, hunseen⟩ := always_look.mp h
    exact always_look.mpr ⟨ih _ hseen, ih _ hunseen⟩
  | call c next ih =>
    obtain ⟨hafter, hstop⟩ := always_call.mp h
    exact always_call.mpr ⟨fun r u hc => ih r (hafter r u hc), hstop⟩

theorem adapt (h : s.Always short t ok error stop) (f : ε → ε') :
    (s.adapt f).Always short t ok error stop := by
  induction s generalizing t with
  | done r =>
    cases r with
    | ok x => exact always_ok (h _ _ (.done _ t)) h.start
    | error e => exact always_error (h _ _ (.done _ t)) h.start
  | look next ih =>
    obtain ⟨hseen, hunseen⟩ := always_look.mp h
    exact always_look.mpr ⟨ih _ hseen, ih _ hunseen⟩
  | call c next ih =>
    obtain ⟨hafter, hstop⟩ := always_call.mp h
    exact always_call.mpr ⟨fun r u hc => ih r (hafter r u hc), hstop⟩

end Always

/-- A failure that is expected is as good as none. -/
theorem Always.allowing {expected : OsFault → Bool} {s : Script OsFault Unit}
    (h : s.Always short t (fun _ => P) error stop) (hexpected : ∀ u, error u → P u)
    (hstop : ∀ u, error u → stop u) :
    (Script.allowing expected s).Always short t (fun _ => P) error stop :=
  h.tryCatch fun _ u hu => .ite (fun _ => always_ok (hexpected u hu) (hstop u hu))
    fun _ => always_error hu (hstop u hu)

/-- A look that succeeds leaves the tree as it was. -/
theorem always_ask_bind {f : Tree → Except OsFault β} {next : β → Script OsFault α}
    (herror : error t) (hstop : stop t)
    (hnext : ∀ x, f t = .ok x → (next x).Always short t ok error stop) :
    (ask f >>= next).Always short t ok error stop := by
  refine always_look.mpr ⟨?_, always_error herror hstop⟩
  change ((done (f t)).bind next).Always short t ok error stop
  cases hanswer : f t with
  | ok x => exact hnext x hanswer
  | error e => exact always_error herror hstop

/-- The same with the failures of the look reported as faults. -/
theorem always_adapt_ask_bind {f : Tree → Except OsFault β} {g : OsFault → ε}
    {next : β → Script ε α} (herror : error t) (hstop : stop t)
    (hnext : ∀ x, f t = .ok x → (next x).Always short t ok error stop) :
    ((ask f).adapt g >>= next).Always short t ok error stop := by
  refine always_look.mpr ⟨?_, always_error herror hstop⟩
  change (((done (f t)).adapt g).bind next).Always short t ok error stop
  cases hanswer : f t with
  | ok x => exact hnext x hanswer
  | error e => exact always_error herror hstop

/-- A call that is done or not is followed by what its answer asks for. -/
theorem always_atOnce {next : Except OsFault Unit → Script ε α} (hc : c.AtOnce) (hstop : stop t)
    (hok : ∀ u, c.exec t = .ok u → (next (.ok ())).Always short u ok error stop)
    (herror : ∀ e, (next (.error e)).Always short t ok error stop) :
    (call c next).Always short t ok error stop := by
  refine always_call.mpr ⟨fun r u h => ?_, fun u h => h.eq_of_atOnce hc ▸ hstop⟩
  cases r with
  | error e => exact h.begun.eq_of_atOnce hc ▸ herror e
  | ok _ =>
    obtain hexec | ⟨_, _, _, rfl, -⟩ := h.done
    · exact hok u hexec
    · exact hc.elim

section Perform

variable {ok : Unit → Tree → Prop}

theorem always_perform (hc : c.AtOnce) (hok : ∀ u, c.exec t = .ok u → ok () u ∧ stop u)
    (herror : error t) (hstop : stop t) : (perform c).Always short t ok error stop :=
  always_atOnce hc hstop (fun u hexec => always_ok (hok u hexec).1 (hok u hexec).2)
    fun _ => always_error herror hstop

theorem always_gradual
    (hok : ∀ u, c.Ends short t (.answered (.ok ())) u → ok () u ∧ stop u)
    (hbegun : ∀ u, c.Begun t u → error u ∧ stop u) : (perform c).Always short t ok error stop := by
  refine always_call.mpr ⟨fun r u h => ?_, fun u h => (hbegun u h).2⟩
  cases r with
  | ok _ => exact always_ok (hok u h).1 (hok u h).2
  | error e => exact always_error (hbegun u h.begun).1 (hbegun u h.begun).2

theorem always_extend (hok : ∀ u, t.add p data = .ok u → ok () u ∧ stop u)
    (hpart : ∀ n u, t.add p (data.take n) = .ok u → error u ∧ stop u) (herror : error t)
    (hstop : stop t) : (perform (.extend p data)).Always short t ok error stop := by
  refine always_gradual (fun u h => ?_) fun u h => ?_
  · obtain hexec | ⟨_, _, _, heq, -⟩ := h.done
    · exact hok u hexec
    · simp at heq
  · cases h with
    | nothing => exact ⟨herror, hstop⟩
    | extend n h => exact hpart n u h

theorem always_write
    (hok : ∀ content u, Takes short data content → t.add p content = .ok u → ok () u ∧ stop u)
    (hpart : ∀ n u, t.add p (data.take n) = .ok u → error u ∧ stop u) (herror : error t)
    (hstop : stop t) : (perform (.write p data)).Always short t ok error stop := by
  refine always_gradual (fun u h => ?_) fun u h => ?_
  · obtain hexec | ⟨_, _, n, heq, hn, hadd⟩ := h.done
    · exact hok _ u (.inl rfl) hexec
    · obtain ⟨rfl, rfl⟩ := Call.write.inj heq
      exact hok _ u (.inr ⟨n, hn, rfl⟩) hadd
  · cases h with
    | nothing => exact ⟨herror, hstop⟩
    | write n h => exact hpart n u h

theorem always_removeTree (hok : ∀ u, (Call.removeTree p).exec t = .ok u → ok () u ∧ stop u)
    (hpart : ∀ q u, t.locate .itself p = .ok q → t.Emptied q u → error u ∧ stop u)
    (herror : error t) (hstop : stop t) :
    (perform (.removeTree p)).Always short t ok error stop := by
  refine always_gradual (fun u h => ?_) fun u h => ?_
  · obtain hexec | ⟨_, _, _, heq, -⟩ := h.done
    · exact hok u hexec
    · simp at heq
  · cases h with
    | nothing => exact ⟨herror, hstop⟩
    | removeTree hthere h => exact hpart _ u hthere h

end Perform

namespace Keeps

theorem forM {f : β → Script ε PUnit} {xs : List β}
    (hf : ∀ x ∈ xs, ∀ u, P u → (f x).Keeps short P u) (h : P t) : (xs.forM f).Keeps short P t := by
  induction xs generalizing t with
  | nil => exact always_ok h h
  | cons x rest ih =>
    obtain ⟨hx, hrest⟩ := List.forall_mem_cons.mp hf
    exact Always.bind (hx t h) fun _ u hu => ih hrest hu

end Keeps

end Always

end Script

end Depot.Storage.Disk
