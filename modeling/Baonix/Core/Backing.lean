import Baonix.Proto.Frame

/-!
# Guest RAM and its backing store

The constants of the guest's physical memory, and the `MemBacking` interface the
emulator pages it through.
-/

namespace Baonix.Core

open Baonix.LittleEndian Baonix.Proto

/-- `RAM_BASE`. -/
abbrev ramBase : ℕ := 0x80000000

/-- `RAM_SIZE`. -/
abbrev ramSize : ℕ := 0x2000000

/-- `RAM_PAGES`. -/
abbrev ramPages : ℕ := ramSize / pageSize

/-- `backing::Error`. -/
inductive Error
  | outOfRange
  | medium
  deriving DecidableEq

class MemBacking (B : Type) where
  readPage : BitVec 32 → B → Except Error Page × B
  writePage : BitVec 32 → Page → B → Except Error Unit × B
  flush : B → Except Error Unit × B

/-- A backing that behaves as a flat array of pages as far as its results can be
relied on: any call may fail, a failed read has no effect, and a failed write
has either stored the page or not. -/
class FlatBacking (B : Type) extends MemBacking B where
  contents : B → BitVec 32 → Page
  contents_readPage : ∀ page backing,
    contents (readPage page backing).2 = contents backing
  readPage_ok : ∀ page backing data, (readPage page backing).1 = .ok data →
    data = contents backing page
  writePage_ok : ∀ page data backing, (writePage page data backing).1 = .ok () →
    contents (writePage page data backing).2 =
      Function.update (contents backing) page data
  writePage_error : ∀ page data backing err,
    (writePage page data backing).1 = .error err →
      contents (writePage page data backing).2 = contents backing ∨
        contents (writePage page data backing).2 =
          Function.update (contents backing) page data
  contents_flush : ∀ backing, contents (flush backing).2 = contents backing

/-- Some call of the backing for a page of RAM fails. -/
def Fallible (B : Type) [MemBacking B] : Prop :=
  ∃ (page : BitVec 32) (backing : B) (err : Error), page.toNat < ramPages ∧
    ((MemBacking.readPage page backing).1 = .error err ∨
      ∃ data, (MemBacking.writePage page data backing).1 = .error err)

/-- `FakeBacking::new(RAM_PAGES)`: an array of pages in memory. -/
structure FakeBacking where
  pages : BitVec 32 → Page

instance : FlatBacking FakeBacking where
  readPage page backing :=
    (if page.toNat < ramPages then .ok (backing.pages page) else .error .outOfRange, backing)
  writePage page data backing :=
    if page.toNat < ramPages then (.ok (), ⟨Function.update backing.pages page data⟩)
    else (.error .outOfRange, backing)
  flush backing := (.ok (), backing)
  contents := FakeBacking.pages
  contents_readPage _ _ := rfl
  readPage_ok page backing data hok := by
    by_cases hpage : page.toNat < ramPages
    · simp only [if_pos hpage] at hok
      exact (Except.ok.inj hok).symm
    · simp [hpage] at hok
  writePage_ok page data backing hok := by
    by_cases hpage : page.toNat < ramPages
    · simp only [if_pos hpage]
    · simp [hpage] at hok
  writePage_error page data backing err herr := by
    by_cases hpage : page.toNat < ramPages
    · simp [hpage] at herr
    · simp only [if_neg hpage, true_or]
  contents_flush _ := rfl

theorem not_fallible_fakeBacking : ¬ Fallible FakeBacking := by
  rintro ⟨page, backing, err, hpage, hread | ⟨data, hwrite⟩⟩
  · simp [MemBacking.readPage, hpage] at hread
  · simp [MemBacking.writePage, hpage] at hwrite

end Baonix.Core
