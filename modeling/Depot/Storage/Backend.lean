import Depot.Action
import Depot.Bytes
import Depot.Listing.Timeline

/-!
What a store has to offer. Reading operations are functions of the store's
state; changing ones are actions, which may fail after part of their effect.
-/
namespace Depot.Storage

structure Backend (σ : Type) where
  /-- Whether one call can list a whole subtree. -/
  hierarchical : Bool
  init : Action σ Unit
  close : Action σ Unit
  level : σ → String → Listing.Options → Listing.Reply
  /-- A bound on the folders that a listing can come across. -/
  folders : σ → Nat
  holds : σ → String → Except Fault Bool
  entry? : σ → String → Except Fault (Option Entry)
  read : σ → String → Except Fault Bytes
  /-- Writes or appends. -/
  write : String → Bytes → Bool → Action σ Unit
  delete : String → Action σ Unit
  setMetadata : String → Texts → Action σ Unit

namespace Backend

variable {σ : Type}

def source (b : Backend σ) (s : σ) (o : Listing.Options) : Listing.Source where
  reply := fun folder => b.level s folder o
  duration := fun _ => 0
  folders := b.folders s

end Backend

end Depot.Storage
