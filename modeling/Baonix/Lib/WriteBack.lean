import Mathlib

/-!
# Write-back caching

Some keys of a store are resident in a cache, and the store behind it may be out
of date for those.  What the two stand for together is `view`.  Loading a key,
evicting a clean key and writing a resident key through to the store leave the
view as it is; storing into a resident key is a store into the view.
-/

namespace Baonix.WriteBack

variable {Key Value : Type*}

/-- What a cache over a store stands for. -/
def view (resident : Key → Option Value) (store : Key → Value) : Key → Value :=
  fun key => (resident key).getD (store key)

theorem view_of_resident {resident : Key → Option Value} {store : Key → Value} {key : Key}
    {value : Value} (hresident : resident key = some value) : view resident store key = value := by
  rw [view, hresident, Option.getD_some]

theorem view_of_absent {resident : Key → Option Value} {store : Key → Value} {key : Key}
    (habsent : resident key = none) : view resident store key = store key := by
  rw [view, habsent, Option.getD_none]

variable [DecidableEq Key]

/-- Loading a key keeps the view. -/
theorem view_load {resident : Key → Option Value} {store : Key → Value} {key : Key}
    (habsent : resident key = none) :
    view (Function.update resident key (some (store key))) store = view resident store := by
  funext other
  by_cases hkey : other = key
  · subst hkey
    simp [view, habsent]
  · simp [view, Function.update_of_ne hkey]

/-- Evicting a key whose value the store has keeps the view. -/
theorem view_evict {resident : Key → Option Value} {store : Key → Value} {key : Key}
    (hclean : resident key = some (store key)) :
    view (Function.update resident key none) store = view resident store := by
  funext other
  by_cases hkey : other = key
  · subst hkey
    simp [view, hclean]
  · simp [view, Function.update_of_ne hkey]

/-- The store behind a resident key does not show. -/
theorem view_store_behind {resident : Key → Option Value} {store : Key → Value} {key : Key}
    (hresident : resident key ≠ none) (value : Value) :
    view resident (Function.update store key value) = view resident store := by
  funext other
  by_cases hkey : other = key
  · subst hkey
    obtain ⟨kept, hkept⟩ := Option.ne_none_iff_exists'.mp hresident
    rw [view_of_resident hkept, view_of_resident hkept]
  · simp [view, Function.update_of_ne hkey]

/-- A store into a resident key is a store into the view. -/
theorem view_update (resident : Key → Option Value) (store : Key → Value) (key : Key)
    (value : Value) :
    view (Function.update resident key (some value)) store =
      Function.update (view resident store) key value := by
  funext other
  by_cases hkey : other = key
  · subst hkey
    simp [view]
  · simp [view, Function.update_of_ne hkey]

end Baonix.WriteBack
