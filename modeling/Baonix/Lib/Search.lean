import Mathlib

/-!
# Searching in what grows

A pattern is looked for in a text that is only ever appended to.  What has been looked
at need not be looked at again, except for its last symbols, one fewer than the pattern
has: an occurrence that was not there before ends in the new part, and begins no further
back than that.
-/

namespace Baonix.Search

variable {Symbol : Type*} {pattern seen whole : List Symbol}

theorem infix_of_drop {count : ℕ} (hoccurs : pattern <:+: whole.drop count) :
    pattern <:+: whole :=
  hoccurs.trans (whole.drop_suffix count).isInfix

/-- An occurrence that does not begin before a place is behind it. -/
theorem infix_drop_append (front rest : List Symbol) {count : ℕ} (hcount : count ≤ front.length) :
    pattern <:+: (front ++ pattern ++ rest).drop count := by
  rw [List.append_assoc, List.drop_append_of_le_length hcount, ← List.append_assoc]
  exact List.infix_append _ _ _

/-- An occurrence that is not in the part seen ends behind it. -/
theorem length_lt_of_new {front rest : List Symbol} (hgrows : seen <+: front ++ pattern ++ rest)
    (hnew : ¬ pattern <:+: seen) : seen.length < front.length + pattern.length := by
  by_contra hbehind
  have hinside : front ++ pattern <+: seen := by
    apply List.prefix_of_prefix_length_le (List.prefix_append _ rest) hgrows
    rw [List.length_append]
    omega
  exact hnew ((List.suffix_append front pattern).isInfix.trans hinside.isInfix)

/-- **A search that resumes** a pattern's length, less one, before the end of what it has
seen finds what a search of the whole text finds. -/
theorem infix_drop_iff (hgrows : seen <+: whole) (hnew : ¬ pattern <:+: seen) :
    pattern <:+: whole.drop (seen.length - (pattern.length - 1)) ↔ pattern <:+: whole := by
  refine ⟨infix_of_drop, ?_⟩
  rintro ⟨front, rest, rfl⟩
  have hends := length_lt_of_new hgrows hnew
  exact infix_drop_append front rest (by omega)

end Baonix.Search
