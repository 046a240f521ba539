import Depot.Proofs.Memory.Layout
import Depot.Proofs.OrderedMap

/-!
What the in-memory store counts. Calls go to the store itself, under paths written in any
way. Whatever changes the contents changes the count by as much, so the count is the total
of the lengths and keeps within the limit; and a call that fails changes nothing.
-/
namespace Depot.Storage.Memory

namespace Table

variable {t t' : Table} {limit : Int} {path : String} {f : Stored} {data : Bytes} {append : Bool}

theorem total_eq_weigh (t : Table) : t.total = t.files.weigh fun f => f.content.length := by
  simp only [total, OrderedMap.weigh, OrderedMap.values, List.foldr_map, List.sum_eq_foldr]

theorem contentSize_eq (t : Table) (path : String) :
    t.contentSize path = ((t.files.get? path).map fun f => f.content.length).getD 0 := by
  unfold contentSize
  cases t.files.get? path <;> rfl

theorem total_put (t : Table) (path : String) (content : Bytes) (metadata : Metadata) :
    (t.put path content metadata).total + t.contentSize path = t.total + content.length := by
  rw [total_eq_weigh, total_eq_weigh, contentSize_eq]
  exact OrderedMap.weigh_insert _ t.files path ⟨content, metadata⟩

theorem total_remove (t : Table) (path : String) :
    (t.remove path).total + t.contentSize path = t.total := by
  rw [total_eq_weigh, total_eq_weigh, contentSize_eq]
  exact OrderedMap.weigh_erase _ t.files path

def totalWith (t : Table) (path : String) (data : Bytes) (append : Bool) : Nat :=
  ((Table.write 0 path data append).runFrom t).2.total

/-- The count is the total, within the limit, and the metadata are what callers attached. -/
structure Counted (limit : Int) (t : Table) : Prop where
  exact : t.size = t.total
  within : 0 < limit → t.size ≤ limit
  texts : ∀ k f, t.files.get? k = some f → ∃ m : Texts, f.metadata = .ofTexts m

theorem Counted.empty (limit : Int) {times : Times String} : Counted limit (.empty times) where
  exact := rfl
  within hlimit := by
    change (0 : Int) ≤ limit
    omega
  texts k f hf := by simp [Table.empty] at hf

/-- The total that a write comes to, by the file that it replaces. -/
theorem Counted.totalWith_eq (h : Counted limit t) (hlayout : t.checkLayout path = .ok ())
    (data : Bytes) (append : Bool) :
    t.totalWith path data append + t.contentSize path =
      t.total + (t.written path data append).length := by
  obtain ⟨m, hm, -⟩ := keptMetadata_of_texts h.texts path
  have hcapacity : checkCapacity 0 t path (t.written path data append).length = .ok () := by
    unfold checkCapacity
    dsimp only
    rw [if_neg (by omega)]
  have hwrite : ((Table.write 0 path data append).runFrom t).2 =
      t.put path (t.written path data append) (.ofTexts m) := by
    rw [runFrom_write, hlayout]
    simp only [hcapacity, hm]
  rw [totalWith, hwrite, total_put]

/-- The check looks at what a write adds, and that is enough within the limit. -/
theorem Counted.checkCapacity_eq (h : Counted limit t) (hlayout : t.checkLayout path = .ok ())
    (data : Bytes) (append : Bool) :
    checkCapacity limit t path (t.written path data append).length = .ok () ↔
      ¬ (0 < limit ∧ limit < t.totalWith path data append) := by
  have htotal := h.totalWith_eq hlayout data append
  have hexact := h.exact
  have hwithin := h.within
  unfold checkCapacity
  dsimp only
  split
  · next hover =>
    refine iff_of_false (by simp) fun hfits => hfits ?_
    omega
  · next hroom =>
    refine iff_of_true rfl fun hover => hroom ?_
    omega

/-- What a write answers and leaves when no layout stands against it. -/
theorem Counted.runFrom_write (h : Counted limit t) (hlayout : t.checkLayout path = .ok ())
    (data : Bytes) (append : Bool) :
    (0 < limit ∧ limit < t.totalWith path data append ∧
      ∃ e, (Table.write limit path data append).runFrom t = (.error e, t) ∧ e.kind = .capacity) ∨
    (¬ (0 < limit ∧ limit < t.totalWith path data append) ∧
      ∃ m : Texts, (Table.write limit path data append).runFrom t =
        (.ok (), t.put path (t.written path data append) (.ofTexts m))) := by
  have hcheck := h.checkCapacity_eq hlayout data append
  rw [Table.runFrom_write, hlayout]
  cases hcapacity : checkCapacity limit t path (t.written path data append).length with
  | error e =>
    rw [hcapacity] at hcheck
    have hover : 0 < limit ∧ limit < t.totalWith path data append := by
      by_contra hfits
      exact absurd (hcheck.mpr hfits) (by simp)
    exact Or.inl ⟨hover.1, hover.2, e, rfl, kind_of_checkCapacity hcapacity⟩
  | ok _ =>
    obtain ⟨m, hm, -⟩ := keptMetadata_of_texts h.texts path
    refine Or.inr ⟨hcheck.mp hcapacity, m, ?_⟩
    simp only [hm]

theorem texts_insert (h : ∀ k f, t.files.get? k = some f → ∃ m : Texts, f.metadata = .ofTexts m)
    (m : Texts) (hf : f.metadata = .ofTexts m) (hfiles : t'.files = t.files.insert path f) :
    ∀ k g, t'.files.get? k = some g → ∃ m : Texts, g.metadata = .ofTexts m := by
  intro k g hg
  rw [hfiles, OrderedMap.get?_insert] at hg
  split at hg
  · exact ⟨m, Option.some.inj hg ▸ hf⟩
  · exact h k g hg

theorem Counted.put (h : Counted limit t) (m : Texts) {content : Bytes}
    (hroom : 0 < limit → (t.put path content (.ofTexts m)).total ≤ limit) :
    Counted limit (t.put path content (.ofTexts m)) := by
  have htotal := total_put t path content (.ofTexts m)
  have hexact : (t.put path content (.ofTexts m)).size =
      (t.put path content (.ofTexts m)).total := by
    have hbefore := h.exact
    simp only [Table.put] at htotal ⊢
    omega
  exact ⟨hexact, fun hlimit => hexact ▸ hroom hlimit, texts_insert h.texts m rfl rfl⟩

theorem Counted.write (h : Counted limit t) (path : String) (data : Bytes) (append : Bool) :
    Counted limit ((Table.write limit path data append).runFrom t).2 := by
  cases hlayout : t.checkLayout path with
  | error e =>
    rw [Table.runFrom_write, hlayout]
    exact h
  | ok _ =>
    have htotal := h.totalWith_eq hlayout data append
    rcases h.runFrom_write hlayout data append with ⟨-, -, e, hrun, -⟩ | ⟨hfits, m, hrun⟩
    · rw [hrun]
      exact h
    · rw [hrun]
      refine h.put m fun hlimit => ?_
      have hput := total_put t path (t.written path data append) (.ofTexts m)
      omega

theorem Counted.remove (h : Counted limit t) (path : String) : Counted limit (t.remove path) := by
  have htotal := total_remove t path
  have hexact : (t.remove path).size = (t.remove path).total := by
    have hbefore := h.exact
    simp only [Table.remove] at htotal ⊢
    omega
  refine ⟨hexact, fun hlimit => ?_, fun k f hf => ?_⟩
  · have hwithin := h.within hlimit
    have hbefore := h.exact
    omega
  · simp only [Table.remove, OrderedMap.get?_erase] at hf
    split at hf
    · simp at hf
    · exact h.texts k f hf

theorem Counted.removeAll (h : Counted limit t) (paths : List String) :
    Counted limit (paths.foldl Table.remove t) := by
  induction paths generalizing t with
  | nil => exact h
  | cons p rest ih => exact ih (h.remove p)

theorem Counted.delete (h : Counted limit t) (path : String) : Counted limit (t.delete path) := by
  unfold Table.delete
  split
  · exact h.remove path
  · exact h.removeAll _

/-- New metadata leave the contents as they are. -/
theorem Counted.setMetadata (h : Counted limit t) (m : Texts)
    (hset : t.setMetadata path (.ofTexts m) = .ok t') : Counted limit t' := by
  obtain ⟨f, hf, rfl⟩ := setMetadata_eq_ok hset
  have htotal := OrderedMap.weigh_insert (fun f : Stored => f.content.length) t.files path
    { f with metadata := .ofTexts m }
  simp only [hf, Option.map_some, Option.getD_some] at htotal
  refine ⟨h.exact.trans ?_, h.within, texts_insert h.texts m rfl rfl⟩
  rw [total_eq_weigh, total_eq_weigh]
  dsimp only
  omega

end Table

open Table (Counted)

variable {c : Config} {s : State}

/-- A call keeps the count, and when it fails it leaves the state as it was. -/
theorem Edit.kept (e : Edit) (h : Counted c.limit s.table) :
    Counted c.limit ((e.act (backend c)).runFrom s).2.table ∧
      ∀ f, ((e.act (backend c)).runFrom s).1 = .error f →
        ((e.act (backend c)).runFrom s).2 = s ∧
          (f.kind = .conflict ∨ f.kind = .capacity ∨ f.kind = .notFound) := by
  cases e with
  | write path data append =>
    simp only [Edit.act, runFrom_write]
    refine ⟨h.write path data append, fun f hf => ?_⟩
    cases hlayout : s.table.checkLayout path with
    | error e =>
      rw [Table.runFrom_write, hlayout] at hf ⊢
      obtain rfl : e = f := Except.error.inj hf
      exact ⟨rfl, Or.inl (Table.kind_of_checkLayout hlayout)⟩
    | ok _ =>
      rcases h.runFrom_write hlayout data append with ⟨-, -, e, hrun, hkind⟩ | ⟨-, m, hrun⟩
      · rw [hrun] at hf ⊢
        obtain rfl : e = f := Except.error.inj hf
        exact ⟨rfl, Or.inr (Or.inl hkind)⟩
      · simp [hrun] at hf
  | delete path =>
    simp only [Edit.act, runFrom_delete]
    exact ⟨h.delete path, fun f hf => by simp at hf⟩
  | setMetadata path m =>
    simp only [Edit.act, runFrom_setMetadata]
    cases hset : s.table.setMetadata path (.ofTexts m) with
    | ok t => exact ⟨h.setMetadata m hset, fun f hf => by simp at hf⟩
    | error e =>
      refine ⟨h, fun f hf => ⟨rfl, Or.inr (Or.inr ?_)⟩⟩
      obtain rfl : e = f := Except.error.inj hf
      unfold Table.setMetadata at hset
      cases hfile : s.table.files.get? path with
      | none =>
        simp only [hfile] at hset
        rw [← Except.error.inj hset]
        rfl
      | some g => simp [hfile] at hset

theorem counted_edited (edits : List Edit) (h : Counted c.limit s.table) :
    Counted c.limit (edited (backend c) s edits).table := by
  induction edits generalizing s with
  | nil => exact h
  | cons e rest ih => exact ih (Edit.kept e h).1

/-- After any calls on an empty store its count is the total length of the contents, within
the limit if there is one. A write that the layout allows is refused for want of room just when
there is a limit and the total would be above it, and otherwise goes through; and a call that
fails, for whatever reason, leaves the whole state as it was. -/
theorem capacity_accounted (c : Config) (s : State) {times : Times String}
    (hempty : s.table = .empty times)
    (edits : List Edit) :
    let s' := edited (backend c) s edits
    s'.table.size = s'.table.total ∧
    (0 < c.limit → s'.table.size ≤ c.limit) ∧
    (∀ path data append, s'.table.checkLayout path = .ok () →
      ((∃ e, (((backend c).write path data append).runFrom s').1 = .error e ∧
          e.kind = .capacity) ↔
        0 < c.limit ∧ c.limit < s'.table.totalWith path data append) ∧
      ((((backend c).write path data append).runFrom s').1 = .ok () ↔
        ¬ (0 < c.limit ∧ c.limit < s'.table.totalWith path data append))) ∧
    ∀ (edit : Edit) (e : Fault), ((edit.act (backend c)).runFrom s').1 = .error e →
      ((edit.act (backend c)).runFrom s').2 = s' ∧
        (e.kind = .conflict ∨ e.kind = .capacity ∨ e.kind = .notFound) := by
  have hcounted : Counted c.limit (edited (backend c) s edits).table :=
    counted_edited edits (hempty ▸ Counted.empty c.limit)
  generalize edited (backend c) s edits = s' at hcounted ⊢
  refine ⟨hcounted.exact, hcounted.within, fun path data append hlayout => ?_,
    fun edit => (Edit.kept edit hcounted).2⟩
  rw [runFrom_write]
  rcases hcounted.runFrom_write hlayout data append with
    ⟨hlimit, hover, e, hrun, hkind⟩ | ⟨hfits, m, hrun⟩
  · rw [hrun]
    exact ⟨iff_of_true ⟨e, rfl, hkind⟩ ⟨hlimit, hover⟩,
      iff_of_false (by simp) fun hfits => hfits ⟨hlimit, hover⟩⟩
  · rw [hrun]
    exact ⟨iff_of_false (by simp) hfits, iff_of_true rfl hfits⟩

def fiveBytes : List Edit :=
  [.write "a/b" [1, 2, 3] false, .write "c" [4] false, .delete "x", .write "c" [5] true]

theorem capacity_accounted_fiveBytes :
    State.fresh.table = .empty ∧
      (edited (backend { limit := 5 }) .fresh fiveBytes).table.checkLayout "d" = .ok () ∧
      (edited (backend { limit := 5 }) .fresh fiveBytes).table.checkLayout "a/b" = .ok () ∧
      (∃ e, (((backend { limit := 5 }).write "d" [6] false).runFrom
        (edited (backend { limit := 5 }) .fresh fiveBytes)).1 = .error e ∧ e.kind = .capacity) ∧
      (((backend { limit := 5 }).write "a/b" [6, 7, 8] false).runFrom
        (edited (backend { limit := 5 }) .fresh fiveBytes)).1 = .ok () := by
  have hnew :
      (edited (backend { limit := 5 }) .fresh fiveBytes).table.checkLayout "d" = .ok () := by
    decide
  have hold : (edited (backend { limit := 5 }) .fresh fiveBytes).table.checkLayout "a/b" =
      .ok () := by
    decide
  obtain ⟨-, -, hwrite, -⟩ := capacity_accounted { limit := 5 } .fresh rfl fiveBytes
  exact ⟨rfl, hnew, hold, (hwrite "d" [6] false hnew).1.mpr (by decide),
    (hwrite "a/b" [6, 7, 8] false hold).2.mpr (by decide)⟩

end Depot.Storage.Memory
