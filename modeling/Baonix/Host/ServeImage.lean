import Baonix.Host.ServeOrder
import Baonix.Lib.Window

/-!
# What the page server does to the image

Over an image whose reads and writes do not fail inside it, the server is an array
of pages behind the link: a write in range replaces its page and nothing else, and
every other request leaves the image as it is.
-/

namespace Baonix.Host

open Baonix.LittleEndian Baonix.Scanning Baonix.Proto Baonix.Window

/-- An image file of fixed contents, on which I/O inside the length does not fail.
Nothing is said about what it does outside. -/
class FlatImage (F : Type*) extends ImageFile F where
  contents : F → List Byte
  readExact_inside (img : F) (start : ℕ) (hfits : start + pageSize ≤ (contents img).length) :
    ∃ data, (readExact img start).1 = some data ∧
      data.bytes = window (contents img) start pageSize ∧
      contents (readExact img start).2 = contents img
  writeAll_inside (img : F) (start : ℕ) (data : Page)
    (hfits : start + pageSize ≤ (contents img).length) :
    (writeAll img start data).1 = true ∧
      contents (writeAll img start data).2 = overwrite (contents img) start data.bytes

theorem readExact_list (img : List Byte) (start : ℕ) (hfits : start + pageSize ≤ img.length) :
    ∃ data : Page, (ImageFile.readExact img start).1 = some data ∧
      data.bytes = window img start pageSize ∧
      (ImageFile.readExact img start).2 = img := by
  refine ⟨_, if_pos hfits, ?_, rfl⟩
  apply List.ext_getElem?
  intro index
  rw [getElem?_window, Page.bytes, List.getElem?_ofFn]
  split
  · rw [List.getElem?_eq_getElem (by omega), List.getD_eq_getElem _ _ (by omega)]
  · rfl

theorem writeAll_list (img : List Byte) (start : ℕ) (data : Page)
    (_hfits : start + pageSize ≤ img.length) :
    (ImageFile.writeAll img start data).1 = true ∧
      (ImageFile.writeAll img start data).2 = overwrite img start data.bytes := by
  refine ⟨rfl, ?_⟩
  rw [overwrite, Page.length_bytes]
  rfl

instance : FlatImage (List Byte) where
  contents img := img
  readExact_inside := readExact_list
  writeAll_inside := writeAll_list

/-! ## An array of pages -/

/-- The page lies inside the image. -/
def Inside (image : List Byte) (page : BitVec 32) : Prop :=
  page.toNat * pageSize + pageSize ≤ image.length

/-- Requests served one after the other: the replies to them and the bytes of the image
before and after. -/
inductive Serves : List Byte → List Frame → List Frame → List Byte → Prop
  | done (image : List Byte) : Serves image [] [] image
  | read {image after : List Byte} {requests replies : List Frame} {page : BitVec 32} {data : Page}
      (hinside : Inside image page)
      (hdata : data.bytes = window image (page.toNat * pageSize) pageSize)
      (hrest : Serves image requests replies after) :
      Serves image (.readReq page :: requests) (.readResp page data :: replies) after
  | readOutside {image after : List Byte} {requests replies : List Frame} {page : BitVec 32}
      (houtside : ¬ Inside image page) (hrest : Serves image requests replies after) :
      Serves image (.readReq page :: requests) (.err 1 page :: replies) after
  | write {image after : List Byte} {requests replies : List Frame} {page : BitVec 32} {data : Page}
      (hinside : Inside image page)
      (hrest : Serves (overwrite image (page.toNat * pageSize) data.bytes) requests replies after) :
      Serves image (.writeReq page data :: requests) (.writeAck page :: replies) after
  | writeOutside {image after : List Byte} {requests replies : List Frame} {page : BitVec 32}
      {data : Page} (houtside : ¬ Inside image page)
      (hrest : Serves image requests replies after) :
      Serves image (.writeReq page data :: requests) (.err 2 page :: replies) after

namespace Serves

variable {image after : List Byte} {requests replies : List Frame}

theorem fits_of_inside {page : BitVec 32} (hinside : Inside image page) (data : Page) :
    page.toNat * pageSize + data.bytes.length ≤ image.length := by
  rwa [Page.length_bytes]

theorem length_image (hserves : Serves image requests replies after) :
    after.length = image.length := by
  induction hserves with
  | done => rfl
  | read _ _ _ ih => exact ih
  | readOutside _ _ ih => exact ih
  | write hinside _ ih => exact ih.trans (length_overwrite (fits_of_inside hinside _))
  | writeOutside _ _ ih => exact ih

theorem length_replies (hserves : Serves image requests replies after) :
    replies.length = requests.length := by
  induction hserves with
  | done => rfl
  | read _ _ _ ih => exact congrArg (· + 1) ih
  | readOutside _ _ ih => exact congrArg (· + 1) ih
  | write _ _ ih => exact congrArg (· + 1) ih
  | writeOutside _ _ ih => exact congrArg (· + 1) ih

/-- **Only the pages written change.** -/
theorem unwritten (hserves : Serves image requests replies after) {index : ℕ}
    (hindex : ∀ page data, .writeReq page data ∈ requests →
      index < page.toNat * pageSize ∨ page.toNat * pageSize + pageSize ≤ index) :
    after[index]? = image[index]? := by
  induction hserves with
  | done => rfl
  | read _ _ _ ih => exact ih fun page data hmem => hindex page data (List.mem_cons_of_mem _ hmem)
  | readOutside _ _ ih => exact ih fun page data hmem => hindex page data (List.mem_cons_of_mem _ hmem)
  | writeOutside _ _ ih => exact ih fun page data hmem => hindex page data (List.mem_cons_of_mem _ hmem)
  | @write image after requests replies page data hinside _ ih =>
      have hapart := hindex page data (List.mem_cons_self ..)
      rw [ih fun page data hmem => hindex page data (List.mem_cons_of_mem _ hmem),
        getElem?_overwrite (fits_of_inside hinside data), Page.length_bytes, if_neg (by omega)]

end Serves

/-! ## The server is one -/

variable {F : Type*} [FlatImage F]

open FlatImage (contents)

theorem outOfRange_eq_false {start len : ℕ} (hfits : start + pageSize ≤ len) :
    outOfRange start len = false := decide_eq_false (not_lt.mpr hfits)

theorem outOfRange_eq_true {start len : ℕ} (hbeyond : ¬ start + pageSize ≤ len) :
    outOfRange start len = true := decide_eq_true (not_le.mp hbeyond)

theorem answers_serves {len : ℕ} {img : F} (hlen : len = (contents img).length)
    {requests : List Frame} (hrequests : ∀ frame ∈ requests, isRequest frame = true) :
    Serves (contents img) requests (answers len img requests).1
      (contents (answers len img requests).2) := by
  induction requests generalizing img with
  | nil => exact .done _
  | cons frame requests ih =>
      obtain ⟨hframe, hlater⟩ := List.forall_mem_cons.mp hrequests
      rw [answers]
      cases frame with
      | readReq page =>
          rw [answer, readPage]
          by_cases hinside : Inside (contents img) page
          · obtain ⟨data, hread, hdata, hsame⟩ := FlatImage.readExact_inside img _ hinside
            rw [outOfRange_eq_false (hlen ▸ hinside), if_neg Bool.false_ne_true]
            rw [hread]
            have hrest := ih (hlen.trans (congrArg List.length hsame.symm)) hlater
            rw [hsame] at hrest
            exact .read hinside hdata hrest
          · rw [outOfRange_eq_true (hlen ▸ hinside), if_pos rfl]
            exact .readOutside hinside (ih hlen hlater)
      | writeReq page data =>
          rw [answer, writePage]
          by_cases hinside : Inside (contents img) page
          · obtain ⟨hwritten, hcontents⟩ := FlatImage.writeAll_inside img _ data hinside
            rw [outOfRange_eq_false (hlen ▸ hinside), if_neg Bool.false_ne_true]
            rw [hwritten, if_pos rfl]
            have hlength := length_overwrite (Serves.fits_of_inside hinside data)
            rw [← hcontents] at hlength
            have hrest := ih (hlen.trans hlength.symm) hlater
            rw [hcontents] at hrest
            exact .write hinside hrest
          · rw [outOfRange_eq_true (hlen ▸ hinside), if_pos rfl]
            exact .writeOutside hinside (ih hlen hlater)
      | readResp => cases hframe
      | writeAck => cases hframe
      | conOut => cases hframe
      | conIn => cases hframe
      | err => cases hframe

/-! ## Calls of `serve_once` -/

theorem serveOrder_isRequest (held : List Frame) :
    ∀ frame ∈ serveOrder held, isRequest frame = true := by
  intro frame hframe
  rw [← filter_serveOrder held] at hframe
  exact (List.mem_filter.mp hframe).2

theorem serveOrder_append_unasked {held batch : List Frame} (hheld : held.filter isRequest = []) :
    serveOrder (held ++ batch) = serveOrder batch := by
  have hkind (kind : Frame → Bool) (himplies : ∀ frame, kind frame = true → isRequest frame = true) :
      held.filter kind = [] := by
    rw [List.filter_eq_nil_iff] at hheld ⊢
    exact fun frame hframe hyes => hheld frame hframe (himplies frame hyes)
  rw [serveOrder, List.filter_append, List.filter_append,
    hkind isRead fun frame hread => by rw [isRequest, hread, Bool.true_or],
    hkind isWrite fun frame hwrite => by rw [isRequest, hwrite, Bool.or_true]]
  rfl

theorem length_flatMap_serveOrder (batches : List (List Frame)) :
    (batches.flatMap serveOrder).length = (batches.flatten.filter isRequest).length := by
  induction batches with
  | nil => rfl
  | cons batch batches ih =>
      rw [List.flatMap_cons, List.length_append, ih, length_serveOrder, List.flatten_cons,
        List.filter_append, List.length_append]

/-- The frames decoded from an input and what comes behind it. -/
theorem framesOf_run_append (m : Mux) (input rest : List Byte) :
    framesOf (run wire (m.dec.buf ++ (input ++ rest))).1 =
      m.completed input ++ framesOf (run wire ((run wire (m.dec.buf ++ input)).2 ++ rest)).1 := by
  have hcompleted : m.completed input = framesOf (run wire (m.dec.buf ++ input)).1 :=
    (Decoder.drain_eq_run _).1
  rw [hcompleted, ← framesOf_append, ← List.append_assoc, run_append]

/-- One call, on any mux: it answers what was held and what the input completes. -/
theorem serveOnce_answers (len : ℕ) (s : Serving F) (input : List Byte) :
    let order := serveOrder (s.mux.held ++ s.mux.completed input)
    (serveOnce len s input).img = (answers len s.img order).2 ∧
      (serveOnce len s input).out = s.out ++ (answers len s.img order).1.flatMap encode ∧
      (serveOnce len s input).mux.held.filter isRequest = [] ∧
      (serveOnce len s input).mux.dec.buf = (run wire (s.mux.dec.buf ++ input)).2 := by
  intro order
  obtain ⟨himg, hout, hmux, -⟩ :=
    serveHeld_spec len { s with mux := s.mux.push input, answered := [] }
  rw [Mux.held_push, serveOrder_append_filter_isHeld] at himg hout
  refine ⟨himg, hout, ?_, ?_⟩
  · simp only [serveOnce, hmux, Mux.takeConsole, Mux.takeNoise]
    rw [List.filter_filter]
    simp
  · simp only [serveOnce, hmux, Mux.takeConsole, Mux.takeNoise, Decoder.takeNoise, Mux.dec_push]
    exact (Decoder.drain_eq_run _).2

/-- Calls on a mux that has nothing left to answer. -/
theorem foldl_serveOnce_answers (len : ℕ) (chunks : List (List Byte)) {s : Serving F}
    (hheld : s.mux.held.filter isRequest = []) (hwait : wire.look s.mux.dec.buf = none) :
    ∃ batches : List (List Frame), batches.length = chunks.length ∧
      batches.flatten = framesOf (run wire (s.mux.dec.buf ++ chunks.flatten)).1 ∧
      (chunks.foldl (serveOnce len) s).img = (answers len s.img (batches.flatMap serveOrder)).2 ∧
      (chunks.foldl (serveOnce len) s).out =
        s.out ++ (answers len s.img (batches.flatMap serveOrder)).1.flatMap encode := by
  induction chunks generalizing s with
  | nil =>
      refine ⟨[], rfl, ?_, rfl, (List.append_nil _).symm⟩
      rw [List.flatten_nil, List.flatten_nil, List.append_nil, run_eq_of_scans (.refl _) hwait]
      rfl
  | cons chunk chunks ih =>
      obtain ⟨himg, hout, hnext, hbuf⟩ := serveOnce_answers len s chunk
      obtain ⟨batches, hlength, hflatten, himgRest, houtRest⟩ :=
        ih hnext (hbuf ▸ (scans_run wire _).2)
      rw [serveOrder_append_unasked hheld] at himg hout
      refine ⟨s.mux.completed chunk :: batches, congrArg (· + 1) hlength, ?_, ?_, ?_⟩
      · rw [List.flatten_cons, hflatten, hbuf, List.flatten_cons, framesOf_run_append]
      · rw [List.foldl_cons, himgRest, List.flatMap_cons, answers_append, himg]
      · rw [List.foldl_cons, houtRest, List.flatMap_cons, answers_append, hout, himg,
          List.flatMap_append, List.append_assoc]

/-- **The page server changes only what it was asked to**, over any image, any bytes and
however they are cut into calls.  Each call is a batch of the frames decoded, which it
serves reads first. -/
theorem serve_changes_only_asked (s : Serving F) (chunks : List (List Byte)) :
    let served := chunks.foldl (serveOnce (contents s.img).length) s
    ∃ (batches : List (List Frame)) (replies : List Frame),
      batches.length = chunks.length ∧
      (chunks ≠ [] → batches.flatten =
        s.mux.held ++ framesOf (run wire (s.mux.dec.buf ++ chunks.flatten)).1) ∧
      served.out = s.out ++ replies.flatMap encode ∧
      replies.length = (batches.flatten.filter isRequest).length ∧
      Serves (contents s.img) (batches.flatMap serveOrder) replies (contents served.img) ∧
      (∀ index : ℕ, (∀ page data, .writeReq page data ∈ batches.flatMap serveOrder →
          index < page.toNat * pageSize ∨ page.toNat * pageSize + pageSize ≤ index) →
        (contents served.img)[index]? = (contents s.img)[index]?) ∧
      (contents served.img).length = (contents s.img).length := by
  intro served
  cases chunks with
  | nil =>
      exact ⟨[], [], rfl, fun hne => absurd rfl hne, (List.append_nil _).symm, rfl, .done _,
        fun _ _ => rfl, rfl⟩
  | cons chunk chunks =>
      obtain ⟨himg, hout, hnext, hbuf⟩ :=
        serveOnce_answers (contents s.img).length s chunk
      obtain ⟨batches, hlength, hflatten, himgRest, houtRest⟩ :=
        foldl_serveOnce_answers (contents s.img).length chunks hnext (hbuf ▸ (scans_run wire _).2)
      let first := s.mux.held ++ s.mux.completed chunk
      have hserves : Serves (contents s.img) ((first :: batches).flatMap serveOrder)
          (answers (contents s.img).length s.img ((first :: batches).flatMap serveOrder)).1
          (contents (answers (contents s.img).length s.img
            ((first :: batches).flatMap serveOrder)).2) := by
        apply answers_serves rfl
        intro frame hframe
        obtain ⟨batch, -, hmem⟩ := List.mem_flatMap.mp hframe
        exact serveOrder_isRequest batch frame hmem
      have himage : served.img = (answers (contents s.img).length s.img
          ((first :: batches).flatMap serveOrder)).2 := by
        rw [List.flatMap_cons, answers_append, ← himg]
        exact himgRest
      rw [← himage] at hserves
      refine ⟨first :: batches, _, congrArg (· + 1) hlength, fun _ => ?_, ?_, ?_, hserves,
        fun _ hapart => hserves.unwritten hapart, hserves.length_image⟩
      · rw [List.flatten_cons, hflatten, hbuf, List.flatten_cons, framesOf_run_append,
          List.append_assoc]
      · rw [List.flatMap_cons, answers_append, List.flatMap_append, ← List.append_assoc, ← hout,
          ← himg]
        exact houtRest
      · exact hserves.length_replies.trans (length_flatMap_serveOrder (first :: batches))

end Baonix.Host
