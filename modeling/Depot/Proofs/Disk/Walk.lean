import Depot.Proofs.Disk.Level
import Depot.Proofs.Memory.Recursion
import Mathlib.Data.List.Perm.Basic

/-!
Listings of a tree that mirrors a table. A walk over the tree comes across the folders that
a walk over the table comes across, and the levels of these have the same entries.
-/
namespace Depot

namespace Listing

variable {source source' : Source} {o : Options} {start f : String} {l l' : List Entry}

/-- Of the levels of a store only the traits decide which folders they lead to. -/
theorem Reached.transfer
    (hlevels : ∀ f, Reached source start f → Reached source' start f →
      ∀ e ∈ source.level f, ∃ e' ∈ source'.level f, e'.traits = e.traits)
    (hf : Reached source start f) : Reached source' start f := by
  induction hf with
  | start => exact .start
  | @down f e hf he hshows ih =>
    obtain ⟨e', he', htraits⟩ := hlevels f hf ih e he
    have hkind : e'.kind = e.kind := congrArg Prod.fst htraits
    have hpath : e'.path = e.path := congrArg (fun x => x.2.1) htraits
    have hshows' : Shows f e' := by
      unfold Shows Entry.isFolder at hshows ⊢
      rw [hkind, hpath]
      exact hshows
    exact hpath ▸ ih.down he' hshows'

namespace Options.Comparable

theorem total (h : o.Comparable) : o.Total := by
  intro test htest e
  obtain ⟨pass, hpass⟩ := h.filter test htest
  exact ⟨pass e.traits, hpass e⟩

end Options.Comparable

end Listing

namespace Storage.Disk

open Listing (Options Plan Reached)
open Memory (Table)

variable {tree : Tree} {table : Table} {o : Options} {f : String}

/-- The kinds of an unordered level, put one after the other. -/
theorem split_perm (es : List Entry) :
    (es.filter Entry.isFolder ++ es.filter Entry.isFile).Perm es := by
  have hfile : es.filter Entry.isFile = es.filter fun e => !e.isFolder := by
    apply List.filter_congr
    intro e _
    unfold Entry.isFile Entry.isFolder
    cases e.kind <;> rfl
  rw [hfile]
  exact List.filter_append_perm _ es

namespace Mirrors

theorem levelOf_perm (h : Mirrors tree table []) (hf : Path.normalize f = f)
    (hadmissible : Admissible f) (o : Options) :
    ∃ es, Listing.Traversal.levelOf ((backend.source tree o).reply f) = .ok es ∧
      (es.map Entry.traits).Perm ((table.view false f o).map Entry.traits) := by
  change ∃ es, Listing.Traversal.levelOf (level tree f o) = .ok es ∧ _
  rw [h.level_eq hf hadmissible]
  cases hfolder : table.folderExists f with
  | true => exact ⟨_, rfl, ((split_perm _).map Entry.traits).trans h.items_perm⟩
  | false =>
    rw [Table.view_of_absent hfolder]
    exact ⟨[], rfl, List.Perm.refl _⟩

theorem level_perm (h : Mirrors tree table []) (hf : Path.normalize f = f)
    (hadmissible : Admissible f) (o : Options) :
    (((backend.source tree o).level f).map Entry.traits).Perm
      ((table.view false f o).map Entry.traits) := by
  obtain ⟨es, hlevel, hperm⟩ := h.levelOf_perm hf hadmissible o
  rw [Listing.Source.level, hlevel]
  exact hperm

theorem admissible_within (h : Mirrors tree table []) (hfolder : Admissible o.folder)
    (hf : table.Within o.folder f) : Admissible f := by
  rcases hf with rfl | ⟨-, hholds, -⟩
  · exact hfolder
  · exact h.admissible_of_holds hholds

/-- A walk over the tree comes across the same folders as one over the table. -/
theorem reached_iff (h : Mirrors tree table []) (hfolder : Admissible o.folder)
    (honce : o.recurse = false) :
    Reached (backend.source tree o) o.folder f ↔ table.Within o.folder f := by
  let s : Memory.State := { Memory.State.fresh with table := table }
  have htable : ∀ f, Reached ((Memory.backend {}).source s o) o.folder f ↔
      table.Within o.folder f := fun f => Memory.reached_iff (s := s) h.tidy honce o.folder_normal
  have hview : ∀ f, ((Memory.backend {}).source s o).level f = table.view false f o :=
    fun f => Memory.source_level (s := s) h.tidy o f
  have hsame : ∀ f, table.Within o.folder f →
      (((backend.source tree o).level f).map Entry.traits).Perm
        ((((Memory.backend {}).source s o).level f).map Entry.traits) := by
    intro f hf
    rw [hview]
    exact h.level_perm (hf.normal o.folder_normal) (h.admissible_within hfolder hf) o
  rw [← htable]
  constructor
  · apply Reached.transfer
    intro f _ hf e he
    exact List.mem_map.mp ((hsame f ((htable f).mp hf)).subset (List.mem_map_of_mem he))
  · apply Reached.transfer
    intro f hf _ e he
    exact List.mem_map.mp ((hsame f ((htable f).mp hf)).symm.subset (List.mem_map_of_mem he))

/-- Every call of a walk over the tree is answered. -/
theorem calm (h : Mirrors tree table []) (hfolder : Admissible o.folder)
    (hf : table.Within o.folder f) (o' : Options) :
    Listing.Timeline.Calm (backend.source tree o') f := by
  obtain ⟨es, hlevel, -⟩ :=
    h.levelOf_perm (hf.normal o.folder_normal) (h.admissible_within hfolder hf) o'
  exact ⟨es, hlevel⟩

theorem instant (tree : Tree) (o : Options) :
    Listing.Timeline.Instant (backend.source tree o) :=
  fun _ => show ¬ (0 : Float) < 0 by decide

variable {c : Memory.Config} {s : Memory.State}

end Mirrors

end Storage.Disk

end Depot
