import Baonix.Core.CacheSpecs
import Baonix.Lib.Memory

/-!
# The page cache as flat memory

Page numbers and offsets are a numbering of the bytes of RAM, so an array of
pages is a flat memory.  The accesses of the cache are reads and writes of that
memory, whether they fit a page or straddle several.
-/

namespace Baonix.Core

open Baonix.LittleEndian Baonix.Proto
open FlatBacking (contents)

/-- The flat memory an array of pages is. -/
def flat (pages : BitVec 32 → Page) : Memory := fun addr =>
  if ramBase ≤ addr ∧ addr < ramBase + ramSize then
    pages (pageOf addr) ⟨addr % pageSize, Nat.mod_lt _ (by norm_num)⟩
  else 0

/-- An access that lies in RAM. -/
def InRam (addr len : ℕ) : Prop := ramBase ≤ addr ∧ addr + len ≤ ramBase + ramSize

theorem checkRange_ok {gpa len : ℕ} : checkRange gpa len = .ok () ↔ InRam gpa len := by
  rw [checkRange, InRam]
  simp only [ramBase, ramSize]
  split
  · simp only [reduceCtorEq, false_iff]
    omega
  · split
    · simp only [reduceCtorEq, false_iff]
      omega
    · simp only [true_iff]
      omega

theorem checkRange_ne_error {gpa len : ℕ} (hram : InRam gpa len) {err : Error} :
    checkRange gpa len ≠ .error err := by
  rw [checkRange_ok.mpr hram]
  exact fun heq => nomatch heq

/-! ## Addresses within one page -/

theorem toNat_pageOf {addr : ℕ} (haddr : InRam addr 1) :
    (pageOf addr).toNat = (addr - ramBase) / pageSize := by
  simp only [InRam, ramBase, ramSize] at haddr
  have hsub : (BitVec.ofNat 64 addr - BitVec.ofNat 64 ramBase).toNat = addr - ramBase := by
    simp only [ramBase, BitVec.toNat_sub, BitVec.toNat_ofNat]
    omega
  have hpage : (BitVec.ofNat 64 pageSize).toNat = pageSize := rfl
  rw [pageOf, BitVec.toNat_setWidth, BitVec.toNat_udiv, hsub, hpage]
  simp only [ramBase, pageSize]
  omega

theorem pageOf_lt {addr n : ℕ} (hpos : 0 < n) (haddr : InRam addr n) :
    (pageOf addr).toNat < ramPages := by
  rw [InRam] at haddr
  rw [toNat_pageOf ⟨haddr.1, by omega⟩]
  simp only [ramBase, ramSize, ramPages, pageSize] at haddr ⊢
  omega

theorem pageOf_add {addr index : ℕ} (haddr : InRam addr 1) (hplace : InRam (addr + index) 1)
    (hindex : addr % pageSize + index < pageSize) : pageOf (addr + index) = pageOf addr := by
  apply BitVec.eq_of_toNat_eq
  rw [toNat_pageOf haddr, toNat_pageOf hplace]
  simp only [InRam, ramBase, pageSize] at haddr hindex ⊢
  omega

theorem mod_add {addr index : ℕ} (hindex : addr % pageSize + index < pageSize) :
    (addr + index) % pageSize = addr % pageSize + index := by
  simp only [pageSize] at hindex ⊢
  omega

/-- A page number and an offset determine the address. -/
theorem addr_eq {addr other : ℕ} (haddr : InRam addr 1) (hother : InRam other 1)
    (hpage : pageOf addr = pageOf other) (hoff : addr % pageSize = other % pageSize) :
    addr = other := by
  have hnumber := congrArg BitVec.toNat hpage
  rw [toNat_pageOf haddr, toNat_pageOf hother] at hnumber
  simp only [InRam, ramBase, ramSize, pageSize] at *
  omega

theorem slice_eq_read (pages : BitVec 32 → Page) {addr n : ℕ} (hram : InRam addr n)
    (hn : addr % pageSize + n ≤ pageSize) :
    slice (pages (pageOf addr)) (addr % pageSize) n = (flat pages).read addr n := by
  apply List.ext_getElem
  · simp only [slice, List.length_take, List.length_drop, Page.length_bytes, Memory.length_read]
    omega
  · intro index hleft hright
    rw [Memory.length_read] at hright
    have hoff : addr % pageSize + index < pageSize := by omega
    rw [InRam] at hram
    have hinside : ramBase ≤ addr + index ∧ addr + index < ramBase + ramSize := by omega
    have hpage := pageOf_add ⟨hram.1, by omega⟩ ⟨hinside.1, by omega⟩ hoff
    simp only [slice, List.getElem_take, List.getElem_drop, Page.getElem_bytes, Memory.read,
      List.getElem_map, List.getElem_range, flat, if_pos hinside, hpage, mod_add hoff]

/-- A splice into one page is a write into the flat memory. -/
theorem flat_splice (pages : BitVec 32 → Page) {addr : ℕ} {bytes : List Byte}
    (hram : InRam addr bytes.length) (hn : addr % pageSize + bytes.length ≤ pageSize) :
    flat (Function.update pages (pageOf addr)
        (splice (pages (pageOf addr)) (addr % pageSize) bytes)) =
      (flat pages).write addr bytes := by
  funext place
  rw [InRam] at hram
  by_cases hplace : ramBase ≤ place ∧ place < ramBase + ramSize
  · by_cases hwritten : addr ≤ place ∧ place < addr + bytes.length
    · obtain ⟨index, rfl⟩ := Nat.exists_eq_add_of_le hwritten.1
      have hindex : index < bytes.length := by omega
      have hoff : addr % pageSize + index < pageSize := by omega
      have hget : bytes[index]? = some bytes[index] := List.getElem?_eq_getElem hindex
      have hpage := pageOf_add ⟨hram.1, by omega⟩ ⟨hplace.1, by omega⟩ hoff
      simp only [flat, if_pos hplace, hpage, mod_add hoff, Function.update_self,
        splice, Memory.write, Nat.le_add_right, if_true, Nat.add_sub_cancel_left, hget,
        Option.getD_some]
    · have hunwritten : (flat pages).write addr bytes place = flat pages place := by
        simp only [Memory.write]
        split
        · rw [List.getElem?_eq_none (by omega), Option.getD_none]
        · rfl
      rw [hunwritten]
      simp only [flat, if_pos hplace]
      by_cases hpage : pageOf place = pageOf addr
      · rw [hpage, Function.update_self, splice]
        split
        · rename_i hle
          dsimp only at hle ⊢
          rw [List.getElem?_eq_none, Option.getD_none]
          by_contra hlt
          -- the place would be one of those written
          have hinside : place % pageSize - addr % pageSize < bytes.length := by omega
          have hoff : addr % pageSize + (place % pageSize - addr % pageSize) < pageSize := by
            omega
          apply hwritten
          have heq : place = addr + (place % pageSize - addr % pageSize) := by
            apply addr_eq
            · exact ⟨hplace.1, by omega⟩
            · exact ⟨by omega, by omega⟩
            · rw [pageOf_add ⟨hram.1, by omega⟩ ⟨by omega, by omega⟩ hoff, hpage]
            · rw [mod_add hoff]
              omega
          omega
        · rfl
      · rw [Function.update_of_ne hpage]
  · have houtside : ¬ (addr ≤ place ∧ place < addr + bytes.length) := by omega
    simp only [flat, if_neg hplace, Memory.write]
    split
    · rw [List.getElem?_eq_none (by omega), Option.getD_none]
    · rfl

/-! ## Stores into a resident page -/

namespace PageCache

variable {B : Type} [FlatBacking B]

/-- Rewriting a frame rewrites its page, as long as it is not then taken for
clean by mistake. -/
theorem WellFormed.modify {c : PageCache B} (hc : WellFormed c) {slot : ℕ}
    {frame : CacheFrame} (hframe : c.frames[slot]? = some frame) (changed : CacheFrame)
    (hpage : changed.page = frame.page)
    (hclean : changed.dirty = false → changed.data = contents c.backing frame.page) :
    WellFormed { c with frames := c.frames.set slot changed } ∧
      ({ c with frames := c.frames.set slot changed } : PageCache B).pages =
        Function.update c.pages frame.page changed.data := by
  have hlt := (List.getElem?_eq_some_iff.mp hframe).1
  have hself : (c.frames.set slot changed)[slot]? = some changed := List.getElem?_set_self hlt
  have hne {other : ℕ} (hother : other ≠ slot) :
      (c.frames.set slot changed)[other]? = c.frames[other]? := List.getElem?_set_ne hother.symm
  have hslot (page : BitVec 32) :
      ({ c with frames := c.frames.set slot changed } : PageCache B).residentSlot page =
        c.residentSlot page := residentSlot_congr rfl page
  constructor
  · refine ⟨?_, ?_, ?_, by simpa using hc.hand_lt, by simpa using hc.length_le, hc.capacity_pos,
      hc.capacity_le⟩
    · intro other found hfound
      rw [hslot]
      by_cases hother : other = slot
      · rw [hother, hself, Option.some.injEq] at hfound
        rw [← hfound, hpage, hother]
        exact hc.indexed slot frame hframe
      · rw [hne hother] at hfound
        exact hc.indexed other found hfound
    · intro page other hresident
      rw [hslot] at hresident
      obtain ⟨found, hfound, hfoundPage⟩ := hc.backed page other hresident
      by_cases hother : other = slot
      · rw [hother, hframe, Option.some.injEq] at hfound
        rw [hother]
        exact ⟨changed, hself, by rw [hpage, hfound, hfoundPage]⟩
      · exact ⟨found, by rw [← hfound]; exact hne hother, hfoundPage⟩
    · intro other found hfound hdirty
      by_cases hother : other = slot
      · rw [hother, hself, Option.some.injEq] at hfound
        rw [← hfound] at hdirty ⊢
        rw [hpage]
        exact hclean hdirty
      · rw [hne hother] at hfound
        exact hc.clean other found hfound hdirty
  · have hcached : ({ c with frames := c.frames.set slot changed } : PageCache B).cached =
        Function.update c.cached frame.page (some changed.data) := by
      funext page
      rw [cached, hslot]
      by_cases hsame : page = frame.page
      · rw [hsame, Function.update_self, hc.indexed slot frame hframe, Option.bind_some, hself,
          Option.map_some]
      · rw [Function.update_of_ne hsame, cached]
        cases hresident : c.residentSlot page with
        | none => rfl
        | some other =>
            have hother : other ≠ slot := by
              rintro rfl
              obtain ⟨found, hfound, hfoundPage⟩ := hc.backed page other hresident
              rw [hframe, Option.some.injEq] at hfound
              exact hsame (by rw [← hfoundPage, ← hfound])
            rw [Option.bind_some, Option.bind_some, hne hother]
    rw [pages, hcached]
    exact WriteBack.view_update ..

omit [FlatBacking B] in
theorem CanAdmit.modify {c : PageCache B} (hcan : CanAdmit c) {slot : ℕ}
    {frame changed : CacheFrame} (hframe : c.frames[slot]? = some frame)
    (hpinned : changed.pinned = frame.pinned) :
    CanAdmit { c with frames := c.frames.set slot changed } := by
  rcases hcan with hroom | ⟨other, found, hfound, hfree⟩
  · left
    simpa using hroom
  · right
    by_cases hother : other = slot
    · rw [hother, hframe, Option.some.injEq] at hfound
      have hlt := (List.getElem?_eq_some_iff.mp hframe).1
      exact ⟨slot, changed, List.getElem?_set_self hlt, by rw [hpinned, hfound, hfree]⟩
    · exact ⟨other, found, by rw [← hfound]; exact List.getElem?_set_ne (Ne.symm hother), hfree⟩

/-! ## Reads and writes -/

/-- The flat memory a cache and its backing stand for. -/
def memory (c : PageCache B) : Memory := flat c.pages

theorem Keeps.memory {c next : PageCache B} (hkeeps : Keeps c next) :
    next.memory = c.memory := by
  rw [PageCache.memory, PageCache.memory, hkeeps.pages]

/-- The cache still works, and stands for `after`. -/
structure Holds (after : Memory) (next : PageCache B) : Prop where
  wellFormed : WellFormed next
  canAdmit : CanAdmit next
  memory : next.memory = after

theorem Keeps.holds {c next : PageCache B} (hkeeps : Keeps c next) : Holds c.memory next :=
  ⟨hkeeps.wellFormed, hkeeps.canAdmit, hkeeps.memory⟩

/-- A turn of a loop stays in the page of its address. -/
theorem chunkLength_le (addr left : ℕ) :
    addr % pageSize + chunkLength addr left ≤ pageSize ∧ chunkLength addr left ≤ left := by
  have hoff := Nat.mod_lt addr (by norm_num : 0 < pageSize)
  rw [chunkLength]
  omega

/-- Reading inside one page. -/
theorem readPage_spec {c : PageCache B} {m : Memory} (hc : Holds m c) {addr n : ℕ}
    (hpos : 0 < n) (hram : InRam addr n) (hn : addr % pageSize + n ≤ pageSize) :
    Exec.wp (do
        let slot ← resident (pageOf addr)
        let frame ← frameAt slot
        pure (slice frame.data (addr % pageSize) n))
      (fun bytes next => Holds m next ∧ bytes = m.read addr n)
      (fun _ next => Holds m next ∧ Fallible B) False c := by
  rw [Exec.wp_bind]
  apply (resident_spec hc.wellFormed hc.canAdmit (pageOf addr)).imp
  · rintro slot next ⟨hkeeps, frame, hframe, hpage⟩
    have hholds : Holds m next := by
      rw [← hc.memory]
      exact hkeeps.holds
    rw [Exec.wp_bind, wp_frameAt hframe, Exec.wp_pure]
    refine ⟨hholds, ?_⟩
    rw [← hkeeps.wellFormed.pages_of_frame hframe, hpage, slice_eq_read _ hram hn, ← hholds.memory]
    rfl
  · rintro _ next ⟨hkeeps, hfallible⟩
    rw [← hc.memory]
    exact ⟨hkeeps.holds, hfallible (pageOf_lt hpos hram)⟩
  · exact fun hfalse => hfalse

/-- Writing inside one page. -/
theorem storePage_spec {c : PageCache B} {m : Memory} (hc : Holds m c) {addr : ℕ}
    (bytes : List Byte) (hpos : 0 < bytes.length) (hram : InRam addr bytes.length)
    (hn : addr % pageSize + bytes.length ≤ pageSize) :
    Exec.wp (do
        let slot ← resident (pageOf addr)
        modifyFrame slot (CacheFrame.store · (addr % pageSize) bytes))
      (fun _ next => Holds (m.write addr bytes) next)
      (fun _ next => Holds m next ∧ Fallible B) False c := by
  rw [Exec.wp_bind]
  apply (resident_spec hc.wellFormed hc.canAdmit (pageOf addr)).imp
  · rintro slot next ⟨hkeeps, frame, hframe, hpage⟩
    rw [wp_modifyFrame hframe]
    obtain ⟨hwell, hpages⟩ := hkeeps.wellFormed.modify hframe
      (frame.store (addr % pageSize) bytes) rfl (fun hdirty => by cases hdirty)
    refine ⟨hwell, hkeeps.canAdmit.modify hframe rfl, ?_⟩
    have hdata := hkeeps.wellFormed.pages_of_frame hframe
    have hsplice := flat_splice next.pages hram hn
    rw [PageCache.memory, hpages, ← hc.memory, ← hkeeps.memory, PageCache.memory, ← hsplice,
      ← hpage, hdata]
    rfl
  · rintro _ next ⟨hkeeps, hfallible⟩
    rw [← hc.memory]
    exact ⟨hkeeps.holds, hfallible (pageOf_lt hpos hram)⟩
  · exact fun hfalse => hfalse

/-- The loop of `read_bytes` reads the flat memory. -/
theorem readChunks_spec (addr left : ℕ) {c : PageCache B} {m : Memory} (hc : Holds m c)
    (hram : InRam addr left) :
    Exec.wp (readChunks (chunks addr left))
      (fun bytes next => Holds m next ∧ bytes = m.read addr left)
      (fun _ next => Holds m next ∧ Fallible B) False c := by
  fun_induction chunks addr left generalizing c with
  | case1 =>
      rw [readChunks, Exec.wp_pure]
      exact ⟨hc, rfl⟩
  | case2 addr left hleft ih =>
      obtain ⟨hpage, hlength⟩ := chunkLength_le addr left
      rw [InRam] at hram
      have hfirst := readPage_spec hc (chunkLength_pos addr hleft)
        (show InRam addr (chunkLength addr left) from ⟨hram.1, by omega⟩) hpage
      rw [Exec.wp_bind] at hfirst
      rw [readChunks, Exec.wp_bind]
      apply hfirst.imp_post
      intro slot middle hslot
      rw [Exec.wp_bind] at hslot ⊢
      apply hslot.imp_post
      intro frame middle hframe
      rw [Exec.wp_pure] at hframe
      obtain ⟨hmiddle, hbytes⟩ := hframe
      rw [Exec.wp_bind]
      apply (ih hmiddle ⟨by omega, by omega⟩).imp_post
      rintro rest next ⟨hnext, hrest⟩
      have hsplit : left = chunkLength addr left + (left - chunkLength addr left) := by
        omega
      rw [Exec.wp_pure]
      refine ⟨hnext, ?_⟩
      rw [hbytes, hrest, ← Memory.read_add, ← hsplit]

/-- The loop of `write_bytes` writes the flat memory. -/
theorem writeChunks_spec {bytes : List Byte} (addr : ℕ) {c : PageCache B} {m : Memory}
    (hc : Holds m c) (hram : InRam addr bytes.length) :
    Exec.wp (writeChunks (chunks addr bytes.length) bytes)
      (fun _ next => Holds (m.write addr bytes) next)
      (fun _ next => (∃ done < bytes.length, (done = 0 ∨ (addr + done) % pageSize = 0) ∧
        Holds (m.write addr (bytes.take done)) next) ∧ Fallible B) False c := by
  generalize hlength : bytes.length = left at hram
  fun_induction chunks addr left generalizing c m bytes with
  | case1 =>
      rw [List.eq_nil_of_length_eq_zero hlength, writeChunks, Exec.wp_pure, Memory.write_nil]
      exact hc
  | case2 addr left hleft ih =>
      obtain ⟨hpage, hfits⟩ := chunkLength_le addr left
      have htake : (bytes.take (chunkLength addr left)).length = chunkLength addr left := by
        rw [List.length_take]
        omega
      rw [InRam] at hram
      have hpos : 0 < chunkLength addr left := by
        have hoff := Nat.mod_lt addr (by norm_num : 0 < pageSize)
        rw [chunkLength]
        omega
      have hfirst := storePage_spec hc (bytes.take (chunkLength addr left)) (by omega)
        (show InRam addr _ from ⟨hram.1, by omega⟩) (by omega)
      rw [Exec.wp_bind] at hfirst
      rw [writeChunks, Exec.wp_bind]
      apply hfirst.imp
      · intro slot middle hslot
        rw [Exec.wp_bind]
        apply hslot.imp
        · intro _ middle hmiddle
          have hdrop : (bytes.drop (chunkLength addr left)).length =
              left - chunkLength addr left := by
            rw [List.length_drop, hlength]
          have hwhole : (m.write addr (bytes.take (chunkLength addr left))).write
              (addr + chunkLength addr left) (bytes.drop (chunkLength addr left)) =
                m.write addr bytes := by
            have happend := Memory.write_append m addr (bytes.take (chunkLength addr left))
              (bytes.drop (chunkLength addr left))
            rw [htake, List.take_append_drop] at happend
            exact happend.symm
          apply (ih hmiddle hdrop ⟨by omega, by omega⟩).imp
          · intro _ next hnext
            rwa [hwhole] at hnext
          · rintro _ next ⟨⟨done, hdone, hboundary, hnext⟩, hfallible⟩
            refine ⟨⟨chunkLength addr left + done, by omega, .inr ?_, ?_⟩, hfallible⟩
            · simp only [chunkLength, pageSize] at hboundary hdone hfits ⊢
              omega
            · rw [List.take_add, Memory.write_append, htake]
              exact hnext
          · exact fun hfalse => hfalse
        · exact fun _ next hnext => ⟨⟨0, by omega, .inl rfl, by simpa using hnext.1⟩, hnext.2⟩
        · exact fun hfalse => hfalse
      · exact fun _ next hnext => ⟨⟨0, by omega, .inl rfl, by simpa using hnext.1⟩, hnext.2⟩
      · exact fun hfalse => hfalse

theorem readBytes_spec (gpa len : ℕ) {c : PageCache B} {m : Memory} (hc : Holds m c) :
    Exec.wp (readBytes gpa len)
      (fun bytes next => Holds m next ∧ bytes = m.read gpa len)
      (fun _ next => Holds m next ∧ (InRam gpa len → Fallible B)) False c := by
  rw [readBytes, Exec.wp_bind, wp_propagate]
  constructor
  · intro _ hok
    apply (readChunks_spec gpa len hc (checkRange_ok.mp hok)).imp
    · exact fun _ _ hnext => hnext
    · exact fun _ _ hfails => ⟨hfails.1, fun _ => hfails.2⟩
    · exact fun hfalse => hfalse
  · exact fun _ hrefused => ⟨hc, fun hram => absurd hrefused (checkRange_ne_error hram)⟩

/-- What a write that failed has stored: the turns completed before the failing
page, and nothing if the range was refused. -/
def StoredUpTo (m : Memory) (gpa : ℕ) (bytes : List Byte) (after : Memory) : Prop :=
  after = m ∨ ∃ done < bytes.length, (gpa + done) % pageSize = 0 ∧
    after = m.write gpa (bytes.take done)

theorem writeBytes_spec (gpa : ℕ) (bytes : List Byte) {c : PageCache B} {m : Memory}
    (hc : Holds m c) :
    Exec.wp (writeBytes gpa bytes)
      (fun _ next => Holds (m.write gpa bytes) next)
      (fun _ next => (∃ after, StoredUpTo m gpa bytes after ∧ Holds after next) ∧
        (InRam gpa bytes.length → Fallible B)) False c := by
  rw [writeBytes, Exec.wp_bind, wp_propagate]
  constructor
  · intro _ hok
    apply (writeChunks_spec gpa hc (checkRange_ok.mp hok)).imp
    · exact fun _ _ hnext => hnext
    · rintro _ next ⟨⟨done, hdone, rfl | hboundary, hnext⟩, hfallible⟩
      · exact ⟨⟨m, .inl rfl, by simpa using hnext⟩, fun _ => hfallible⟩
      · exact ⟨⟨_, .inr ⟨done, hdone, hboundary, rfl⟩, hnext⟩, fun _ => hfallible⟩
    · exact fun hfalse => hfalse
  · intro _ hrefused
    exact ⟨⟨m, .inl rfl, hc⟩, fun hram => absurd hrefused (checkRange_ne_error hram)⟩

theorem readSized_spec (N : Width) (gpa : ℕ) {c : PageCache B} {m : Memory} (hc : Holds m c)
    (hram : InRam gpa N) :
    Exec.wp (readSized N gpa) (fun bytes next => Holds m next ∧ bytes = m.read gpa N)
      (fun _ next => Holds m next ∧ Fallible B) False c := by
  rw [readSized, Exec.wp_ite]
  split
  · rename_i hfits
    exact readPage_spec hc N.property.1 hram hfits
  · apply (readBytes_spec gpa N hc).imp
    · exact fun _ _ hnext => hnext
    · exact fun _ _ hfails => ⟨hfails.1, hfails.2 hram⟩
    · exact fun hfalse => hfalse

theorem readLe_spec (N : Width) (gpa : ℕ) {c : PageCache B} {m : Memory} (hc : Holds m c) :
    Exec.wp (readLe N gpa)
      (fun value next => Holds m next ∧ value = BitVec.ofNat 64 (ofBytes (m.read gpa N)))
      (fun _ next => Holds m next ∧ (InRam gpa N → Fallible B)) False c := by
  rw [readLe, Exec.wp_bind, wp_propagate]
  constructor
  · intro _ hok
    rw [Exec.wp_bind]
    apply (readSized_spec N gpa hc (checkRange_ok.mp hok)).imp
    · rintro bytes next ⟨hnext, rfl⟩
      rw [Exec.wp_pure]
      exact ⟨hnext, rfl⟩
    · exact fun _ _ hfails => ⟨hfails.1, fun _ => hfails.2⟩
    · exact fun hfalse => hfalse
  · exact fun _ hrefused => ⟨hc, fun hram => absurd hrefused (checkRange_ne_error hram)⟩

/-- The bytes `write_le` stores. -/
def leBytes (N : Width) (value : BitVec 64) : List Byte := (toBytes 8 value.toNat).take N

theorem length_leBytes (N : Width) (value : BitVec 64) : (leBytes N value).length = N := by
  have hwidth := N.property.2
  rw [leBytes, List.length_take, length_toBytes]
  omega

theorem writeLe_spec (N : Width) (gpa : ℕ) (value : BitVec 64) {c : PageCache B} {m : Memory}
    (hc : Holds m c) :
    Exec.wp (writeLe N gpa value)
      (fun _ next => Holds (m.write gpa (leBytes N value)) next)
      (fun _ next => (∃ after, StoredUpTo m gpa (leBytes N value) after ∧ Holds after next) ∧
        (InRam gpa N → Fallible B)) False c := by
  rw [writeLe, Exec.wp_bind, wp_propagate]
  constructor
  · intro _ hok
    rw [Exec.wp_ite]
    split
    · have hwrite := writeBytes_spec gpa (leBytes N value) hc
      rw [length_leBytes] at hwrite
      exact hwrite
    · rename_i hfits
      have hlength := length_leBytes N value
      have hram := checkRange_ok.mp hok
      rw [← hlength] at hram
      apply (storePage_spec hc _ (by rw [hlength]; exact N.property.1) hram
        (by rw [hlength]; exact not_lt.mp hfits)).imp
      · exact fun _ _ hnext => hnext
      · exact fun _ next hnext => ⟨⟨m, .inl rfl, hnext.1⟩, fun _ => hnext.2⟩
      · exact fun hfalse => hfalse
  · intro _ hrefused
    exact ⟨⟨m, .inl rfl, hc⟩, fun hram => absurd hrefused (checkRange_ne_error hram)⟩

/-! ## Pinning and flushing -/

/-- Pinning a page changes nothing but what may be evicted. -/
theorem pin_spec (page : BitVec 32) {c : PageCache B} (hc : WellFormed c) :
    Exec.wp (pin page) (fun _ next => WellFormed next ∧ next.memory = c.memory)
      (fun _ _ => False) False c := by
  rw [pin, Exec.wp_bind, Exec.wp_read]
  cases hslot : c.residentSlot page with
  | none =>
      dsimp only
      rw [Exec.wp_pure]
      exact ⟨hc, rfl⟩
  | some slot =>
      obtain ⟨frame, hframe, -⟩ := hc.backed page slot hslot
      dsimp only
      rw [wp_modifyFrame hframe]
      obtain ⟨hwell, hpages⟩ := hc.modify hframe { frame with pinned := true } rfl
        (hc.clean slot frame hframe)
      refine ⟨hwell, ?_⟩
      have hsame : Function.update c.pages frame.page frame.data = c.pages := by
        rw [← hc.pages_of_frame hframe, Function.update_eq_self]
      rw [PageCache.memory, hpages, hsame]
      rfl

/-- Writing dirty frames back, as far as the backing lets it, keeps the memory. -/
theorem flushFrames_spec (slots : List ℕ) {c : PageCache B} {m : Memory} (hc : Holds m c)
    (hslots : ∀ slot ∈ slots, slot < c.frames.length) :
    Exec.wp (flushFrames slots) (fun _ next => Holds m next) (fun _ next => Holds m next)
      False c := by
  induction slots generalizing c with
  | nil =>
      rw [flushFrames, Exec.wp_pure]
      exact hc
  | cons slot slots ih =>
      obtain ⟨frame, hframe⟩ := exists_frame (hslots slot (List.mem_cons_self ..))
      have hrest : ∀ other ∈ slots, other < c.frames.length := fun other hother =>
        hslots other (List.mem_cons_of_mem _ hother)
      rw [flushFrames, Exec.wp_bind, wp_frameAt hframe, Exec.wp_ite]
      split
      · rw [Exec.wp_bind, wp_onBacking, Exec.wp_bind, wp_propagate]
        have hok := FlatBacking.writePage_ok frame.page frame.data c.backing
        have herr := FlatBacking.writePage_error frame.page frame.data c.backing
        rcases hwrite : MemBacking.writePage frame.page frame.data c.backing with
          ⟨result, backing⟩
        rw [hwrite] at hok herr
        dsimp only at hok herr ⊢
        have hback (hbacking : contents backing = contents c.backing ∨
            contents backing = Function.update (contents c.backing) frame.page frame.data) :
            Holds m { c with backing := backing } := by
          obtain ⟨hwell, hpages⟩ := hc.wellFormed.writeBack hframe hbacking
          refine ⟨hwell, hc.canAdmit, ?_⟩
          rw [← hc.memory, PageCache.memory, PageCache.memory, hpages]
        constructor
        · intro _ hresult
          have hstored := hok hresult
          have hholds := hback (.inr hstored)
          have hframe' : ({ c with backing := backing } : PageCache B).frames[slot]? =
              some frame := hframe
          rw [Exec.wp_bind, wp_modifyFrame hframe', Exec.wp_bind, wp_count]
          -- the frame may be called clean: the backing now has what it holds
          obtain ⟨hwell, hpages⟩ := hholds.wellFormed.modify hframe'
            { frame with dirty := false } rfl
            (fun _ => by simp only [hstored, Function.update_self])
          have hkeeps : Keeps { c with backing := backing }
              { c with backing := backing,
                       frames := c.frames.set slot { frame with dirty := false } } := by
            refine ⟨hwell, ?_, hholds.canAdmit.modify hframe' rfl⟩
            rw [hpages]
            have hdata := hholds.wellFormed.pages_of_frame hframe'
            rw [← hdata, Function.update_eq_self]
          have hcounted := (hkeeps.setStats
            { c.stats with writebacks := c.stats.writebacks + 1 }).holds
          rw [hholds.memory] at hcounted
          apply ih hcounted
          simpa using hrest
        · intro err hresult
          exact hback (herr err hresult)
      · exact ih hc hrest

/-- A backing with the same contents serves as well. -/
theorem Holds.with_backing {c : PageCache B} {m : Memory} (hc : Holds m c) {backing : B}
    (hcontents : contents backing = contents c.backing) :
    Holds m { c with backing := backing } := by
  have hwell := hc.wellFormed
  refine ⟨⟨hwell.indexed, hwell.backed, ?_, hwell.hand_lt, hwell.length_le,
    hwell.capacity_pos, hwell.capacity_le⟩, hc.canAdmit, ?_⟩
  · intro slot frame hframe hdirty
    rw [hcontents]
    exact hwell.clean slot frame hframe hdirty
  · rw [← hc.memory]
    simp only [PageCache.memory, PageCache.pages, hcontents]
    rfl

theorem flush_spec {c : PageCache B} {m : Memory} (hc : Holds m c) :
    Exec.wp flush (fun _ next => Holds m next) (fun _ next => Holds m next) False c := by
  rw [flush, Exec.wp_bind, Exec.wp_read, Exec.wp_bind]
  apply (flushFrames_spec _ hc (by simp)).imp_post
  intro _ next hnext
  rw [Exec.wp_bind, wp_onBacking, wp_propagate]
  have hflushed : Holds m { next with backing := (MemBacking.flush next.backing).2 } :=
    hnext.with_backing (FlatBacking.contents_flush next.backing)
  exact ⟨fun _ _ => hflushed, fun _ _ => hflushed⟩

end PageCache

end Baonix.Core
