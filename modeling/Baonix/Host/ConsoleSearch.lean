import Baonix.Host.Slices
import Baonix.Lib.Search

/-!
# The search for the marker

`console_reached` is called on an output that only grows, and looks each time only at
what it has not seen, backed up by the marker's length less one.  A marker cut by any
number of polls is found by the first poll that sees all of it.
-/

namespace Baonix.Host

open Baonix.LittleEndian

variable {marker : List Byte}

/-- The polls of a growing output: where each search began, and what it returned. -/
def polls (marker : List Byte) : ℕ → List (List Byte) → List (ℕ × Bool)
  | _, [] => []
  | scanned, out :: outs =>
      let found := consoleReached out marker scanned
      (scanned, found.1) :: polls marker found.2 outs

/-- What the polls leave for the next one, when none has found the marker in `seen`:
a place inside the output, before which no new occurrence begins. -/
structure Resumes (marker seen : List Byte) (scanned : ℕ) : Prop where
  inside : scanned ≤ seen.length
  complete : ∀ whole, seen <+: whole → ¬ marker <:+: seen →
    (marker <:+: whole.drop scanned ↔ marker <:+: whole)

theorem resumes_nil (marker : List Byte) : Resumes marker [] 0 :=
  ⟨le_rfl, fun _ _ _ => Iff.rfl⟩

theorem resumes_consoleReached (hmarker : marker ≠ []) (out : List Byte) (scanned : ℕ) :
    Resumes marker out (consoleReached out marker scanned).2 := by
  rw [consoleReached, if_neg hmarker]
  exact ⟨Nat.sub_le _ _, fun whole hgrows hnew => Search.infix_drop_iff hgrows hnew⟩

/-- A poll finds the marker, unless an earlier one has. -/
theorem Resumes.found_iff (hmarker : marker ≠ []) {seen out : List Byte} {scanned : ℕ}
    (hresumes : Resumes marker seen scanned) (hgrows : seen <+: out) :
    marker <:+: seen ∨ (consoleReached out marker scanned).1 = true ↔ marker <:+: out := by
  rw [consoleReached, if_neg hmarker, decide_eq_true_iff]
  constructor
  · rintro (hseen | hfound)
    · exact hseen.trans hgrows.isInfix
    · exact Search.infix_of_drop hfound
  · intro hout
    by_cases hseen : marker <:+: seen
    · exact .inl hseen
    · exact .inr ((hresumes.complete out hgrows hseen).mpr hout)

/-- The polls of an output that has grown past `seen`. -/
theorem Resumes.polls_spec (hmarker : marker ≠ []) {seen : List Byte} {scanned : ℕ}
    (hresumes : Resumes marker seen scanned) {outs : List (List Byte)}
    (hgrows : (seen :: outs).IsChain (· <+: ·)) :
    List.Forall₂ (fun out poll => poll.1 ≤ out.length) outs (polls marker scanned outs) ∧
      ((marker <:+: seen ∨ ∃ start, (start, true) ∈ polls marker scanned outs) ↔
        marker <:+: outs.getLastD seen) := by
  induction outs generalizing seen scanned with
  | nil => simp [polls]
  | cons out outs ih =>
      obtain ⟨hfirst, hrest⟩ := List.isChain_cons_cons.mp hgrows
      obtain ⟨hinside, hlast⟩ := ih (resumes_consoleReached hmarker out scanned) hrest
      have hfound := hresumes.found_iff hmarker hfirst
      constructor
      · rw [polls]
        exact .cons (hresumes.inside.trans hfirst.length_le) hinside
      · rw [List.getLastD_cons, ← hlast, ← hfound, or_assoc]
        apply or_congr_right
        rw [polls]
        constructor
        · rintro ⟨start, hstart⟩
          rcases List.mem_cons.mp hstart with hhead | htail
          · exact .inl (Prod.mk.inj hhead).2.symm
          · exact .inr ⟨start, htail⟩
        · rintro (hhead | ⟨start, hstart⟩)
          · exact ⟨scanned, List.mem_cons.mpr (.inl (by rw [hhead]))⟩
          · exact ⟨start, List.mem_cons_of_mem _ hstart⟩

/-- **The search never misses.**  Whenever an output that only grows is polled for a
nonempty marker, every search begins inside the output, and one of them succeeds exactly
when the marker is in the output the last one saw. -/
theorem polls_find_iff (hmarker : marker ≠ []) {outs : List (List Byte)}
    (hgrows : outs.IsChain (· <+: ·)) (hpolled : outs ≠ []) :
    List.Forall₂ (fun out poll => poll.1 ≤ out.length) outs (polls marker 0 outs) ∧
      ((∃ start, (start, true) ∈ polls marker 0 outs) ↔ marker <:+: outs.getLast hpolled) := by
  have hchain : ([] :: outs).IsChain (· <+: ·) := by
    cases outs with
    | nil => exact absurd rfl hpolled
    | cons out outs => exact List.isChain_cons_cons.mpr ⟨List.nil_prefix, hgrows⟩
  obtain ⟨hinside, hfound⟩ := (resumes_nil marker).polls_spec hmarker hchain
  refine ⟨hinside, ?_⟩
  have hempty : ¬ marker <:+: ([] : List Byte) := fun hnil => hmarker (List.infix_nil.mp hnil)
  rw [or_iff_right hempty] at hfound
  rw [hfound, List.getLastD_eq_getLast?, List.getLast?_eq_getLast_of_ne_nil hpolled,
    Option.getD_some]

/-- The prompt in three polls, none of which delivers more than a byte of it. -/
theorem polls_find_prompt :
    ∃ start, (start, true) ∈ polls [0x7E, 0x20, 0x23] 0
      [[0x0A, 0x7E], [0x0A, 0x7E, 0x20], [0x0A, 0x7E, 0x20, 0x23]] :=
  (polls_find_iff (by decide) (by decide) (by decide)).2.mpr ⟨[0x0A], [], rfl⟩

end Baonix.Host
