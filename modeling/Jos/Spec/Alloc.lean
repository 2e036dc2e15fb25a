import Jos.Spec.Pmap

/-!
# Runs of the page allocator

Calls of `page_alloc`, `page_free` and `page_decref` in any order, on any pages of the `pages`
array, from any state of the free list.
-/

namespace Jos

/-- A call to the page allocator; `zero` is `alloc_flags & ALLOC_ZERO`. -/
inductive PageCall
  | alloc (zero : Bool)
  | free (pp : ℕ)
  | decref (pp : ℕ)

/-- The allocator, with the pages that `page_alloc` has returned and that were not freed since. -/
structure Allocator where
  pm : Pmap
  out : Set ℕ

/-- The call is made on a page of the array. -/
def PageCall.InArray (m : Pmap) : PageCall → Prop
  | .alloc _ => True
  | .free pp => pp < m.npages
  | .decref pp => pp < m.npages

namespace Allocator

/-- One call. -/
def exec (σ : Allocator) : PageCall → Option Allocator
  | .alloc zero => (pageAlloc σ.pm zero).map fun r => ⟨r.2, σ.out ∪ {p | r.1 = some p}⟩
  | .free pp => (pageFree σ.pm pp).map fun m => ⟨m, σ.out \ {pp}⟩
  | .decref pp => (pageDecref σ.pm pp).map fun m =>
      ⟨m, if (σ.pm.pages pp).ppRef = 1 then σ.out \ {pp} else σ.out⟩

/-- One call that does not panic and meets the condition. -/
def Step (C : Pmap → PageCall → Prop) (σ σ' : Allocator) : Prop :=
  ∃ c : PageCall, c.InArray σ.pm ∧ C σ.pm c ∧ σ.exec c = some σ'

/-- Any sequence of calls. -/
abbrev Run (C : Pmap → PageCall → Prop) : Allocator → Allocator → Prop :=
  Relation.ReflTransGen (Step C)

end Allocator

end Jos
