import Baonix.Host.ServeImage

/-!
# One page behind a lossy link

Requests for a page are on their way to the image, and answers are on their way back.  Once
a write is acknowledged the page holds what was written as long as every copy of a write
that is still on its way carries the same data, and no answer behind the acknowledgement
tells anything else.
-/

namespace Baonix.EndToEnd

open Baonix.LittleEndian Baonix.Proto Baonix.Window Baonix.Host

/-- The page lies inside the image and holds the data. -/
structure HoldsPage (image : List Byte) (page : BitVec 32) (data : Page) : Prop where
  inside : Inside image page
  bytes : data.bytes = window image (page.toNat * pageSize) pageSize

theorem bytes_injective : Function.Injective Page.bytes := List.ofFn_injective

/-! ## What serving does to a page -/

section Serving

variable {image after : List Byte} {requests replies : List Frame} {page : BitVec 32}
  {data : Page}

theorem HoldsPage.eq (hholds : HoldsPage image page data) {other : Page}
    (hother : other.bytes = window image (page.toNat * pageSize) pageSize) : other = data :=
  bytes_injective (hother.trans hholds.bytes.symm)

theorem inside_overwrite {other : BitVec 32} (hother : Inside image other) (new : Page) :
    Inside (overwrite image (other.toNat * pageSize) new.bytes) page ↔ Inside image page := by
  rw [Inside, Inside, length_overwrite (Serves.fits_of_inside hother new)]

theorem holdsPage_overwrite (hinside : Inside image page) (data : Page) :
    HoldsPage (overwrite image (page.toNat * pageSize) data.bytes) page data where
  inside := (inside_overwrite hinside data).mpr hinside
  bytes := by
    have hself := window_overwrite_self (Serves.fits_of_inside hinside data)
    rw [Page.length_bytes] at hself
    exact hself.symm

theorem HoldsPage.overwrite (hholds : HoldsPage image page data) {other : BitVec 32}
    (hother : Inside image other) (hne : other ≠ page) (new : Page) :
    HoldsPage (overwrite image (other.toNat * pageSize) new.bytes) page data where
  inside := (inside_overwrite hother new).mpr hholds.inside
  bytes := by
    have hnat : other.toNat ≠ page.toNat := fun heq => hne (BitVec.eq_of_toNat_eq heq)
    have hapart : page.toNat * pageSize + pageSize ≤ other.toNat * pageSize ∨
        other.toNat * pageSize + new.bytes.length ≤ page.toNat * pageSize := by
      rw [Page.length_bytes, ← Nat.succ_mul, ← Nat.succ_mul]
      rcases Nat.lt_or_gt_of_ne hnat with hless | hmore
      · exact .inr (Nat.mul_le_mul_right _ hless)
      · exact .inl (Nat.mul_le_mul_right _ hmore)
    rw [hholds.bytes, window_overwrite_of_apart (Serves.fits_of_inside hother new) hapart]

/-- Writes that write what the page holds leave it, and reads tell it. -/
theorem serves_keep (hserves : Serves image requests replies after)
    (hwrites : ∀ other, .writeReq page other ∈ requests → other = data)
    (hholds : HoldsPage image page data) :
    HoldsPage after page data ∧ ∀ other, .readResp page other ∈ replies → other = data := by
  induction hserves with
  | done image => exact ⟨hholds, fun other hmem => absurd hmem List.not_mem_nil⟩
  | @read image after requests replies asked found hinside hfound hrest ih =>
      obtain ⟨hafter, hreads⟩ :=
        ih (fun other hmem => hwrites other (List.mem_cons_of_mem _ hmem)) hholds
      refine ⟨hafter, fun other hmem => ?_⟩
      rcases List.mem_cons.mp hmem with heq | hmem
      · cases heq
        exact hholds.eq hfound
      · exact hreads other hmem
  | readOutside houtside hrest ih =>
      obtain ⟨hafter, hreads⟩ :=
        ih (fun other hmem => hwrites other (List.mem_cons_of_mem _ hmem)) hholds
      exact ⟨hafter, fun other hmem => hreads other (by simpa using hmem)⟩
  | @write image after requests replies asked new hinside hrest ih =>
      have hnow : HoldsPage (Window.overwrite image (asked.toNat * pageSize) new.bytes) page data := by
        by_cases hasked : asked = page
        · cases hasked
          rw [hwrites new (List.mem_cons_self ..)]
          exact holdsPage_overwrite hinside data
        · exact hholds.overwrite hinside hasked new
      obtain ⟨hafter, hreads⟩ :=
        ih (fun other hmem => hwrites other (List.mem_cons_of_mem _ hmem)) hnow
      exact ⟨hafter, fun other hmem => hreads other (by simpa using hmem)⟩
  | writeOutside houtside hrest ih =>
      obtain ⟨hafter, hreads⟩ :=
        ih (fun other hmem => hwrites other (List.mem_cons_of_mem _ hmem)) hholds
      exact ⟨hafter, fun other hmem => hreads other (by simpa using hmem)⟩

/-- An answer that comes behind an acknowledgement of the page tells what was written. -/
def BehindAck (page : BitVec 32) (data : Page) (first second : Frame) : Prop :=
  first = .writeAck page → ∀ other, second = .readResp page other → other = data

theorem behindAck_of_ne {first second : Frame} (hne : first ≠ .writeAck page) :
    BehindAck page data first second := fun hack => absurd hack hne

/-- An acknowledgement says that the page holds what was written, by one of the writes. -/
theorem serves_acked (hserves : Serves image requests replies after)
    (hwrites : ∀ other, .writeReq page other ∈ requests → other = data) :
    (.writeAck page ∈ replies → HoldsPage after page data ∧ .writeReq page data ∈ requests) ∧
      replies.Pairwise (BehindAck page data) := by
  induction hserves with
  | done image => exact ⟨fun hmem => absurd hmem List.not_mem_nil, .nil⟩
  | @read image after requests replies asked found hinside hfound hrest ih =>
      obtain ⟨hacked, hordered⟩ := ih fun other hmem => hwrites other (List.mem_cons_of_mem _ hmem)
      refine ⟨fun hmem => ?_, List.pairwise_cons.mpr ⟨fun _ _ => behindAck_of_ne (by simp), hordered⟩⟩
      obtain ⟨hafter, hrequest⟩ := hacked (by simpa using hmem)
      exact ⟨hafter, List.mem_cons_of_mem _ hrequest⟩
  | readOutside houtside hrest ih =>
      obtain ⟨hacked, hordered⟩ := ih fun other hmem => hwrites other (List.mem_cons_of_mem _ hmem)
      refine ⟨fun hmem => ?_, List.pairwise_cons.mpr ⟨fun _ _ => behindAck_of_ne (by simp), hordered⟩⟩
      obtain ⟨hafter, hrequest⟩ := hacked (by simpa using hmem)
      exact ⟨hafter, List.mem_cons_of_mem _ hrequest⟩
  | @write image after requests replies asked new hinside hrest ih =>
      have hlater := fun other hmem => hwrites other (List.mem_cons_of_mem _ hmem)
      obtain ⟨hacked, hordered⟩ := ih hlater
      by_cases hasked : asked = page
      · cases hasked
        have hnew := hwrites new (List.mem_cons_self ..)
        rw [hnew] at hrest ⊢
        obtain ⟨hafter, hreads⟩ := serves_keep hrest hlater (holdsPage_overwrite hinside data)
        refine ⟨fun _ => ⟨hafter, List.mem_cons_self ..⟩, List.pairwise_cons.mpr ⟨?_, hordered⟩⟩
        intro second hsecond _ other hother
        exact hreads other (hother ▸ hsecond)
      · refine ⟨fun hmem => ?_, List.pairwise_cons.mpr
          ⟨fun _ _ => behindAck_of_ne (by simpa using hasked), hordered⟩⟩
        rcases List.mem_cons.mp hmem with heq | hmem
        · cases heq
          exact absurd rfl hasked
        · obtain ⟨hafter, hrequest⟩ := hacked hmem
          exact ⟨hafter, List.mem_cons_of_mem _ hrequest⟩
  | writeOutside houtside hrest ih =>
      obtain ⟨hacked, hordered⟩ := ih fun other hmem => hwrites other (List.mem_cons_of_mem _ hmem)
      refine ⟨fun hmem => ?_, List.pairwise_cons.mpr ⟨fun _ _ => behindAck_of_ne (by simp), hordered⟩⟩
      obtain ⟨hafter, hrequest⟩ := hacked (by simpa using hmem)
      exact ⟨hafter, List.mem_cons_of_mem _ hrequest⟩

end Serving

/-! ## The two states of a page -/

/-- The page holds `data`; nothing on its way says or does otherwise. -/
structure Settled (page : BitVec 32) (data : Page) (requests : List (ℕ × Frame))
    (image : List Byte) (coming : List Frame) : Prop where
  image : HoldsPage image page data
  writes : ∀ tag other, (tag, .writeReq page other) ∈ requests → other = data
  reads : ∀ other, .readResp page other ∈ coming → other = data

/-- The exchange `call` is writing `data`; every write on its way is one of its own. -/
structure Writing (page : BitVec 32) (data : Page) (call : ℕ) (requests : List (ℕ × Frame))
    (image : List Byte) (served : List (ℕ × Frame)) (coming : List Frame) : Prop where
  writes : ∀ tag other, (tag, .writeReq page other) ∈ requests → tag = call ∧ other = data
  acked : .writeAck page ∈ coming →
    HoldsPage image page data ∧ (call, .writeReq page data) ∈ served
  ordered : coming.Pairwise (BehindAck page data)

section States

variable {page : BitVec 32} {data : Page} {call : ℕ} {requests : List (ℕ × Frame)}
  {image : List Byte} {served : List (ℕ × Frame)} {coming : List Frame}

namespace Settled

theorem lost (hpage : Settled page data requests image coming) {fewer : List (ℕ × Frame)}
    (hfewer : fewer.Sublist requests) {less : List Frame} (hless : less.Sublist coming) :
    Settled page data fewer image less where
  image := hpage.image
  writes tag other hmem := hpage.writes tag other (hfewer.subset hmem)
  reads other hmem := hpage.reads other (hless.subset hmem)

theorem asked (hpage : Settled page data requests image coming) {more : List (ℕ × Frame)}
    (hmore : ∀ tag other, (tag, .writeReq page other) ∉ more) :
    Settled page data (requests ++ more) image coming where
  image := hpage.image
  writes tag other hmem := by
    rcases List.mem_append.mp hmem with hmem | hmem
    · exact hpage.writes tag other hmem
    · exact absurd hmem (hmore tag other)
  reads := hpage.reads

theorem told (hpage : Settled page data requests image coming) {more : List Frame}
    (hmore : ∀ other, .readResp page other ∉ more) :
    Settled page data requests image (coming ++ more) where
  image := hpage.image
  writes := hpage.writes
  reads other hmem := by
    rcases List.mem_append.mp hmem with hmem | hmem
    · exact hpage.reads other hmem
    · exact absurd hmem (hmore other)

end Settled

namespace Writing

theorem lost (hpage : Writing page data call requests image served coming)
    {fewer : List (ℕ × Frame)} (hfewer : fewer.Sublist requests) {less : List Frame}
    (hless : less.Sublist coming) : Writing page data call fewer image served less where
  writes tag other hmem := hpage.writes tag other (hfewer.subset hmem)
  acked hmem := hpage.acked (hless.subset hmem)
  ordered := hpage.ordered.sublist hless

theorem asked (hpage : Writing page data call requests image served coming)
    {more : List (ℕ × Frame)}
    (hmore : ∀ tag other, (tag, .writeReq page other) ∈ more → tag = call ∧ other = data) :
    Writing page data call (requests ++ more) image served coming where
  writes tag other hmem := by
    rcases List.mem_append.mp hmem with hmem | hmem
    · exact hpage.writes tag other hmem
    · exact hmore tag other hmem
  acked := hpage.acked
  ordered := hpage.ordered

theorem told (hpage : Writing page data call requests image served coming) {more : List Frame}
    (hreads : ∀ other, .readResp page other ∉ more) (hacks : .writeAck page ∉ more) :
    Writing page data call requests image served (coming ++ more) where
  writes := hpage.writes
  acked hmem := by
    rcases List.mem_append.mp hmem with hmem | hmem
    · exact hpage.acked hmem
    · exact absurd hmem hacks
  ordered := by
    refine List.pairwise_append.mpr ⟨hpage.ordered, ?_, ?_⟩
    · refine List.pairwise_of_forall_mem_list fun first hfirst second _ hack => ?_
      exact absurd (hack ▸ hfirst) hacks
    · intro first _ second hsecond _ other hother
      exact absurd (hother ▸ hsecond) (hreads other)

/-- A write begins when no write of the page and no acknowledgement is on its way. -/
theorem begun (hwrites : ∀ tag other, (tag, .writeReq page other) ∉ requests)
    (hacks : .writeAck page ∉ coming) :
    Writing page data call requests image served coming where
  writes tag other hmem := absurd hmem (hwrites tag other)
  acked hmem := absurd hmem hacks
  ordered := List.pairwise_of_forall_mem_list fun _ hfirst _ _ hack =>
    absurd (hack ▸ hfirst) hacks

/-- **Behind an acknowledgement the page is settled.** -/
theorem settled {rest : List Frame}
    (hpage : Writing page data call requests image served (.writeAck page :: rest)) :
    Settled page data requests image rest where
  image := (hpage.acked (List.mem_cons_self ..)).1
  writes tag other hmem := (hpage.writes tag other hmem).2
  reads other hmem := (List.pairwise_cons.mp hpage.ordered).1 _ hmem rfl other rfl

end Writing

/-! ## A batch of requests is served -/

variable {done rest : List (ℕ × Frame)} {replies : List Frame} {after : List Byte}

theorem mem_done {frame : Frame} (hframe : frame ∈ serveOrder (done.map Prod.snd)) :
    ∃ tag, (tag, frame) ∈ done := by
  have hmem : frame ∈ done.map Prod.snd := by
    rcases List.mem_append.mp hframe with hread | hwrite
    · exact (List.mem_filter.mp hread).1
    · exact (List.mem_filter.mp hwrite).1
  obtain ⟨tagged, htagged, rfl⟩ := List.mem_map.mp hmem
  exact ⟨tagged.1, htagged⟩

variable (hserves : Serves image (serveOrder (done.map Prod.snd)) replies after)
include hserves

theorem Settled.serve (hpage : Settled page data (done ++ rest) image coming) :
    Settled page data rest after (coming ++ replies) := by
  have hwrites : ∀ other, .writeReq page other ∈ serveOrder (done.map Prod.snd) →
      other = data := by
    intro other hmem
    obtain ⟨tag, htag⟩ := mem_done hmem
    exact hpage.writes tag other (List.mem_append_left _ htag)
  obtain ⟨hafter, hreads⟩ := serves_keep hserves hwrites hpage.image
  refine ⟨hafter, fun tag other hmem => hpage.writes tag other (List.mem_append_right _ hmem),
    fun other hmem => ?_⟩
  rcases List.mem_append.mp hmem with hmem | hmem
  · exact hpage.reads other hmem
  · exact hreads other hmem

theorem Writing.serve (hpage : Writing page data call (done ++ rest) image served coming) :
    Writing page data call rest after (served ++ done) (coming ++ replies) := by
  have htagged {other : Page} (hmem : .writeReq page other ∈ serveOrder (done.map Prod.snd)) :
      (call, .writeReq page other) ∈ done ∧ other = data := by
    obtain ⟨tag, htag⟩ := mem_done hmem
    obtain ⟨rfl, hother⟩ := hpage.writes tag other (List.mem_append_left _ htag)
    exact ⟨htag, hother⟩
  have hwrites : ∀ other, .writeReq page other ∈ serveOrder (done.map Prod.snd) →
      other = data := fun other hmem => (htagged hmem).2
  obtain ⟨hacked, hordered⟩ := serves_acked hserves hwrites
  refine ⟨fun tag other hmem => hpage.writes tag other (List.mem_append_right _ hmem), ?_, ?_⟩
  · intro hmem
    rcases List.mem_append.mp hmem with hmem | hmem
    · obtain ⟨hholds, hserved⟩ := hpage.acked hmem
      exact ⟨(serves_keep hserves hwrites hholds).1, List.mem_append_left _ hserved⟩
    · obtain ⟨hholds, hrequest⟩ := hacked hmem
      exact ⟨hholds, List.mem_append_right _ (htagged hrequest).1⟩
  · refine List.pairwise_append.mpr ⟨hpage.ordered, hordered, ?_⟩
    -- an acknowledgement that is there already means the page was written before
    intro first hfirst second hsecond hack other hother
    have hholds := (hpage.acked (hack ▸ hfirst)).1
    exact (serves_keep hserves hwrites hholds).2 other (hother ▸ hsecond)

end States

end Baonix.EndToEnd
