import Mathlib

/-!
# Incremental scanners

A scanner reads a growing buffer from the front.  It either waits for more
input or removes a nonempty stretch and emits one token for it.  The only thing
asked of it is *stability*: a decision taken on a buffer is the decision taken
on every extension of that buffer.  From that alone the tokens of a stream do
not depend on how the stream was cut into deliveries, nor on how often the
scanner was run in between.
-/

namespace Baonix.Scanning

variable {Symbol Token : Type*}

/-- A stable scanner.  `look` is `none` while more input is needed, and
otherwise the number of symbols consumed together with the token emitted. -/
structure Scanner (Symbol Token : Type*) where
  look : List Symbol → Option (ℕ × Token)
  look_pos : ∀ {buffer count token}, look buffer = some (count, token) → 0 < count
  look_le : ∀ {buffer count token},
    look buffer = some (count, token) → count ≤ buffer.length
  look_append : ∀ {buffer count token}, look buffer = some (count, token) →
    ∀ more, look (buffer ++ more) = some (count, token)

/-- `Scans S buffer tokens rest`: some number of decisions taken from the front
of `buffer` emit `tokens` and leave `rest`. -/
inductive Scans (S : Scanner Symbol Token) :
    List Symbol → List Token → List Symbol → Prop
  | refl (buffer : List Symbol) : Scans S buffer [] buffer
  | head {buffer : List Symbol} {count : ℕ} {token : Token}
      {tokens : List Token} {rest : List Symbol}
      (hlook : S.look buffer = some (count, token))
      (htail : Scans S (buffer.drop count) tokens rest) :
      Scans S buffer (token :: tokens) rest

namespace Scans

variable {S : Scanner Symbol Token}

theorem single {buffer : List Symbol} {count : ℕ} {token : Token}
    (hlook : S.look buffer = some (count, token)) :
    Scans S buffer [token] (buffer.drop count) :=
  head hlook (refl _)

theorem trans {first second third : List Symbol} {tokens more : List Token}
    (hleft : Scans S first tokens second) (hright : Scans S second more third) :
    Scans S first (tokens ++ more) third := by
  induction hleft with
  | refl => exact hright
  | head hlook _ ih => exact head hlook (ih hright)

/-- Stability lifted to whole scans: input that arrives later does not disturb
what has already been decided. -/
theorem append {buffer rest : List Symbol} {tokens : List Token}
    (hscan : Scans S buffer tokens rest) (more : List Symbol) :
    Scans S (buffer ++ more) tokens (rest ++ more) := by
  induction hscan with
  | refl => exact refl _
  | head hlook _ ih =>
      refine head (S.look_append hlook more) ?_
      rwa [List.drop_append_of_le_length (S.look_le hlook)]

theorem length_le {buffer rest : List Symbol} {tokens : List Token}
    (hscan : Scans S buffer tokens rest) : rest.length ≤ buffer.length := by
  induction hscan with
  | refl => exact le_rfl
  | head _ _ ih => exact ih.trans (by simp)

/-- A scan that emitted a token has removed symbols. -/
theorem length_lt {buffer rest : List Symbol} {tokens : List Token}
    (hscan : Scans S buffer tokens rest) (htokens : tokens ≠ []) :
    rest.length < buffer.length := by
  cases hscan with
  | refl => exact absurd rfl htokens
  | head hlook htail =>
      have hpos := S.look_pos hlook
      have hcount := S.look_le hlook
      have hle := htail.length_le
      rw [List.length_drop] at hle
      omega

/-- A scan is empty or begins with the scanner's decision on its buffer. -/
theorem eq_or_looks {buffer rest : List Symbol} {tokens : List Token}
    (hscan : Scans S buffer tokens rest) :
    (tokens = [] ∧ rest = buffer) ∨
      ∃ count token tail, S.look buffer = some (count, token) ∧
        tokens = token :: tail ∧ Scans S (buffer.drop count) tail rest := by
  cases hscan with
  | refl => exact .inl ⟨rfl, rfl⟩
  | head hlook htail => exact .inr ⟨_, _, _, hlook, rfl, htail⟩

theorem eq_of_waits {buffer rest : List Symbol} {tokens : List Token}
    (hscan : Scans S buffer tokens rest) (hwait : S.look buffer = none) :
    tokens = [] ∧ rest = buffer := by
  cases hscan with
  | refl => exact ⟨rfl, rfl⟩
  | head hlook => rw [hlook] at hwait; cases hwait

/-- A scan that ran until the scanner waits passes through every state any
other scan of the same buffer reaches. -/
theorem extends_of_waits {buffer rest middle : List Symbol}
    {tokens before : List Token}
    (hscan : Scans S buffer tokens rest) (hwait : S.look rest = none)
    (hpart : Scans S buffer before middle) :
    ∃ after, Scans S middle after rest ∧ tokens = before ++ after := by
  induction hpart generalizing tokens with
  | refl => exact ⟨tokens, hscan, rfl⟩
  | head hlook _ ih =>
      cases hscan with
      | refl => rw [hlook] at hwait; cases hwait
      | head hlook' htail =>
          rw [hlook] at hlook'
          cases hlook'
          obtain ⟨after, hafter, rfl⟩ := ih htail
          exact ⟨after, hafter, rfl⟩

/-- A scan cut after some of its tokens. -/
theorem of_append {buffer rest : List Symbol} {before after : List Token}
    (hscan : Scans S buffer (before ++ after) rest) :
    ∃ middle, Scans S buffer before middle ∧ Scans S middle after rest := by
  induction before generalizing buffer with
  | nil => exact ⟨buffer, refl _, hscan⟩
  | cons token before ih =>
      cases hscan with
      | head hlook htail =>
          obtain ⟨middle, hleft, hright⟩ := ih htail
          exact ⟨middle, head hlook hleft, hright⟩

/-- Of two scans of one buffer, one goes on where the other stopped. -/
theorem comparable {buffer left right : List Symbol} {tokens tokens' : List Token}
    (hleft : Scans S buffer tokens left) (hright : Scans S buffer tokens' right) :
    (∃ after, Scans S left after right ∧ tokens' = tokens ++ after) ∨
      ∃ after, Scans S right after left ∧ tokens = tokens' ++ after := by
  induction hleft generalizing tokens' with
  | refl => exact .inl ⟨tokens', hright, rfl⟩
  | @head _ _ _ tokens _ hlook htail ih =>
      cases hright with
      | refl => exact .inr ⟨_, head hlook htail, rfl⟩
      | head hlook' htail' =>
          rw [hlook] at hlook'
          cases hlook'
          rcases ih htail' with ⟨after, hafter, rfl⟩ | ⟨after, hafter, rfl⟩
          · exact .inl ⟨after, hafter, rfl⟩
          · exact .inr ⟨after, hafter, rfl⟩

/-- Scans that ran until the scanner waits agree. -/
theorem waits_unique {buffer left right : List Symbol}
    {tokens tokens' : List Token}
    (hleft : Scans S buffer tokens left) (hwaitLeft : S.look left = none)
    (hright : Scans S buffer tokens' right) (hwaitRight : S.look right = none) :
    tokens = tokens' ∧ left = right := by
  obtain ⟨after, hafter, rfl⟩ := hleft.extends_of_waits hwaitLeft hright
  obtain ⟨rfl, rfl⟩ := hafter.eq_of_waits hwaitRight
  exact ⟨List.append_nil _, rfl⟩

/-- If every token carries the symbols it consumed, nothing is lost and nothing
is counted twice. -/
theorem conserves {buffer rest : List Symbol} {tokens : List Token}
    (symbols : Token → List Symbol)
    (hsymbols : ∀ {buffer count token},
      S.look buffer = some (count, token) → symbols token = buffer.take count)
    (hscan : Scans S buffer tokens rest) :
    tokens.flatMap symbols ++ rest = buffer := by
  induction hscan with
  | refl => simp
  | head hlook _ ih =>
      rw [List.flatMap_cons, List.append_assoc, ih, hsymbols hlook,
        List.take_append_drop]

end Scans

/-- Runs the scanner until it waits. -/
def run (S : Scanner Symbol Token) (buffer : List Symbol) :
    List Token × List Symbol :=
  match _hlook : S.look buffer with
  | none => ([], buffer)
  | some (count, token) =>
      let tail := run S (buffer.drop count)
      (token :: tail.1, tail.2)
termination_by buffer.length
decreasing_by
  have hpos := S.look_pos _hlook
  have hle := S.look_le _hlook
  simp only [List.length_drop]
  omega

theorem scans_run (S : Scanner Symbol Token) (buffer : List Symbol) :
    Scans S buffer (run S buffer).1 (run S buffer).2 ∧
      S.look (run S buffer).2 = none := by
  fun_induction run S buffer with
  | case1 buffer hlook => exact ⟨.refl _, hlook⟩
  | case2 buffer count token hlook tail ih => exact ⟨.head hlook ih.1, ih.2⟩

/-- A scan that ran until the scanner waits is the run. -/
theorem run_eq_of_scans {S : Scanner Symbol Token} {buffer rest : List Symbol}
    {tokens : List Token} (hscan : Scans S buffer tokens rest)
    (hwait : S.look rest = none) : run S buffer = (tokens, rest) := by
  obtain ⟨hrun, hrunWait⟩ := scans_run S buffer
  obtain ⟨htokens, hrest⟩ := hrun.waits_unique hrunWait hscan hwait
  exact Prod.ext htokens hrest

/-- Running on a longer stream continues from the buffer the shorter one left. -/
theorem run_append (S : Scanner Symbol Token) (first second : List Symbol) :
    run S (first ++ second) =
      ((run S first).1 ++ (run S ((run S first).2 ++ second)).1,
        (run S ((run S first).2 ++ second)).2) := by
  obtain ⟨hfirst, -⟩ := scans_run S first
  obtain ⟨hsecond, hwait⟩ := scans_run S ((run S first).2 ++ second)
  exact run_eq_of_scans ((hfirst.append second).trans hsecond) hwait

/-- A partial scan followed by a run is the run of the whole buffer. -/
theorem run_of_scans {S : Scanner Symbol Token} {buffer rest : List Symbol}
    {tokens : List Token} (hscan : Scans S buffer tokens rest) :
    run S buffer = (tokens ++ (run S rest).1, (run S rest).2) :=
  run_eq_of_scans (hscan.trans (scans_run S rest).1) (scans_run S rest).2

end Baonix.Scanning
