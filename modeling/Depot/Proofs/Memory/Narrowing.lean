import Depot.Proofs.Listing.Narrowing
import Depot.Proofs.Memory.Recursion

/-!
Narrowed listings of the in-memory store. A level of it leaves out nothing but files that
do not match the prefix, so it makes no difference whether prefix, filter and limit are
handed to the listing or applied to the answer of the plain one.
-/
namespace Depot.Storage.Memory

open Listing (Options Candid Narrows Surveyed)

variable {c : Config} {s : State} {t : Table} {o : Options} {whole : Bool} {folder : String}

/-- A level and the plain one show the same entries that match. -/
theorem Table.filter_view (q : Options) (threads : Nat) (hthreads : 0 < threads) :
    (t.view whole folder q).filter q.isMatch =
      (t.view whole folder (q.plain threads hthreads)).filter q.isMatch := by
  have hall : ∀ es : List Entry, es.filter (q.plain threads hthreads).isMatch = es := by
    intro es
    apply List.filter_eq_self.mpr
    intro e _
    exact Options.isMatch_of_passes (Options.passes_plain e)
  simp only [view, hall, List.filter_append, List.filter_filter, Bool.and_self]
  rfl

theorem candid_of_tidy (h : s.table.Tidy) : Candid ((backend c).source s) where
  instant := source_instant
  answers q f := by
    change (∃ level, s.table.level c.hierarchical f q = .ok level) ∨ _
    rw [Table.level_eq h]
    split
    · exact Or.inl ⟨_, rfl⟩
    · rename_i hfolder
      refine Or.inr ⟨.notFound f none, ?_, rfl⟩
      exact (Table.level_eq h).trans (if_neg hfolder)
  shows q threads hthreads f := by
    rw [source_level h, source_level h]
    exact Table.filter_view q threads hthreads

theorem surveyed_of_tidy (h : s.table.Tidy) :
    Surveyed c.hierarchical o ((backend c).source s) := by
  intro _ q halike
  have hrecurse : q.recurse = false := congrArg Options.recurse halike
  refine ⟨s.table.candidates o.folder, (s.table.candidates_length o.folder).le, fun f hf => ?_⟩
  exact ((reached_iff h hrecurse o.folder_normal).mp hf).mem_candidates

/-- A store whose calls take no time and that leaves out at most files off the prefix answers
a narrowed listing with the beginning of what passes in the plain answer, in the same order,
whatever the number of threads; and the in-memory store is such a store in every state that
changes lead to. -/
theorem narrowing_afterwards (o : Options) (hfilter : o.Total) :
    (∀ hierarchical store, Candid store → Surveyed hierarchical o store →
        Narrows hierarchical o store) ∧
      ∀ (c : Config) (times : Times String) (changes : List Change),
        Narrows (backend c).hierarchical o
          ((backend c).source (after (backend c) (.fresh times) changes)) := by
  constructor
  · intro hierarchical store hstore hsurveyed
    exact hstore.narrows hsurveyed hfilter
  · intro c times changes
    have htidy : (after (backend c) (.fresh times) changes).table.Tidy := tidy_after changes .empty
    exact (candid_of_tidy htidy).narrows (surveyed_of_tidy htidy) hfilter

def oneFile : Options → Listing.Source :=
  (backend {}).source (after (backend {}) .fresh [.write (some "a/b") [1] false])

theorem narrowing_afterwards_oneFile :
    ∃ es,
      (Listing.list false (Listing.everything.plain 3 (by decide)) oneFile).answer = .ok es ∧
      (Listing.list false { Listing.everything with limit := some 1 } oneFile).answer =
        .ok ((es.filter Listing.everything.passes).take 1) := by
  have htidy : (after (backend {}) .fresh [.write (some "a/b") [1] false]).table.Tidy :=
    tidy_after _ .empty
  have hcandid : Candid oneFile := candid_of_tidy htidy
  have hsurveyed : Surveyed false Listing.everything oneFile :=
    surveyed_of_tidy (c := { hierarchical := false }) htidy
  obtain ⟨es, hplain, hnarrow⟩ :=
    (narrowing_afterwards Listing.everything Listing.everything_total).1 false oneFile hcandid
      hsurveyed
  exact ⟨es, hplain 3 (by decide),
    hnarrow (some 1) Listing.everything.threads Listing.everything.threads_pos⟩

end Depot.Storage.Memory
