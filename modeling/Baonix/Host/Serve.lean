import Baonix.Proto.Mux

/-!
# The page server

The laptop side of the link: `serve_once` answers the page requests that have
arrived from a flat file, and `serve_shared` runs it over the successive reads
of a connection.
-/

namespace Baonix.Host

open Baonix.LittleEndian Baonix.Scanning Baonix.Proto

/-- The image file: `seek` followed by `read_exact` or `write_all` of one page.
Both may fail. -/
class ImageFile (F : Type*) where
  readExact : F → ℕ → Option Page × F
  writeAll : F → ℕ → Page → Bool × F

variable {F : Type*} [ImageFile F]

def outOfRange (start len : ℕ) : Bool := start + pageSize > len

def readPage (img : F) (len : ℕ) (page : BitVec 32) : Option Page × F :=
  let start := page.toNat * pageSize
  if outOfRange start len then (none, img) else ImageFile.readExact img start

def writePage (img : F) (len : ℕ) (page : BitVec 32) (data : Page) : Bool × F :=
  let start := page.toNat * pageSize
  if outOfRange start len then (false, img) else ImageFile.writeAll img start data

/-- What `serve_once` reads and writes, its parameters and result together. -/
structure Serving (F : Type*) where
  img : F
  mux : Mux
  out : List Byte
  con : List Byte
  answered : List (Byte × BitVec 32)

/-- The two arms of the loop in `serve_once`: the page asked about, the reply
and the image after it. -/
def answer (len : ℕ) (img : F) : Frame → Option (BitVec 32 × Frame × F)
  | .readReq page =>
      let result := readPage img len page
      match result.1 with
      | some data => some (page, .readResp page data, result.2)
      | none => some (page, .err 1 page, result.2)
  | .writeReq page data =>
      let result := writePage img len page data
      some (page, if result.1 then .writeAck page else .err 2 page, result.2)
  | _ => none

/-- `m.take_matching(0x01).or_else(|| m.take_matching(0x03))`. -/
def nextRequest (m : Mux) : Option (Frame × Mux) :=
  (m.takeMatching 0x01).or (m.takeMatching 0x03)

theorem length_nextRequest {m next : Mux} {frame : Frame}
    (hnext : nextRequest m = some (frame, next)) : next.held.length < m.held.length := by
  rcases Option.or_eq_some_iff.mp hnext with htake | ⟨-, htake⟩
  · exact Mux.length_takeMatching htake
  · exact Mux.length_takeMatching htake

/-- One turn of the loop in `serve_once`, on the frame taken. -/
def Serving.respond (s : Serving F) (len : ℕ) (frame : Frame) (mux : Mux) : Serving F :=
  match answer len s.img frame with
  | some (page, reply, img) =>
      { s with
        img := img
        mux := mux
        out := s.out ++ encode reply
        answered := s.answered ++ [(frame.typeByte, page)] }
  | none => { s with mux := mux }

@[simp]
theorem Serving.mux_respond (s : Serving F) (len : ℕ) (frame : Frame) (mux : Mux) :
    (s.respond len frame mux).mux = mux := by
  rw [respond]
  split <;> rfl

/-- The loop in `serve_once`. -/
def serveHeld (len : ℕ) (s : Serving F) : Serving F :=
  match _hnext : nextRequest s.mux with
  | none => s
  | some (frame, mux) => serveHeld len (s.respond len frame mux)
termination_by s.mux.held.length
decreasing_by
  rw [Serving.mux_respond]
  exact length_nextRequest _hnext

def serveOnce (len : ℕ) (s : Serving F) (input : List Byte) : Serving F :=
  let served := serveHeld len { s with mux := s.mux.push input, answered := [] }
  let console := served.mux.takeConsole
  { served with con := served.con ++ console.1, mux := console.2.takeNoise.2 }

/-- The connection as `serve_shared` opens it. -/
def opened (img : F) : Serving F := ⟨img, Mux.capturingNoise, [], [], []⟩

/-- `serve_shared` over the successive reads of a connection; `out` collects
what is sent. -/
def serveShared (len : ℕ) (img : F) (chunks : List (List Byte)) : Serving F :=
  chunks.foldl (serveOnce len) (opened img)

/-! ## Requests answered one at a time -/

/-- Answers requests in the order they stand in: the replies and the image they
leave. -/
def answers (len : ℕ) (img : F) : List Frame → List Frame × F
  | [] => ([], img)
  | frame :: frames =>
      match answer len img frame with
      | some (_, reply, img) => (reply :: (answers len img frames).1, (answers len img frames).2)
      | none => answers len img frames

theorem answers_append (len : ℕ) (img : F) (first second : List Frame) :
    answers len img (first ++ second) =
      ((answers len img first).1 ++ (answers len (answers len img first).2 second).1,
        (answers len (answers len img first).2 second).2) := by
  induction first generalizing img with
  | nil => rfl
  | cons frame first ih =>
      rw [List.cons_append, answers, answers]
      cases hanswer : answer len img frame with
      | none => exact ih img
      | some result =>
          simp only [ih, List.cons_append]

def isRead (frame : Frame) : Bool := frame.typeByte = 0x01

def isWrite (frame : Frame) : Bool := frame.typeByte = 0x03

def isRequest (frame : Frame) : Bool := isRead frame || isWrite frame

theorem answer_isSome (len : ℕ) (img : F) (frame : Frame) :
    (answer len img frame).isSome = isRequest frame := by
  cases frame with
  | readReq page =>
      simp only [answer]
      split <;> rfl
  | _ => rfl

theorem answers_filter (len : ℕ) (img : F) (frames : List Frame) :
    answers len img (frames.filter isRequest) = answers len img frames := by
  induction frames generalizing img with
  | nil => rfl
  | cons frame frames ih =>
      have hsome := answer_isSome len img frame
      rw [List.filter_cons, answers]
      cases hanswer : answer len img frame with
      | none =>
          rw [hanswer, Option.isSome_none] at hsome
          rw [← hsome, if_neg (by simp), ih]
      | some result =>
          rw [hanswer, Option.isSome_some] at hsome
          rw [← hsome, if_pos rfl, answers, hanswer]
          simp only [ih]

/-- A reply that answers a read. -/
def repliesToRead : Frame → Bool
  | .readResp _ _ => true
  | .err code _ => code = 1
  | _ => false

theorem repliesToRead_answer {len : ℕ} {img next : F} {frame reply : Frame}
    {page : BitVec 32} (hanswer : answer len img frame = some (page, reply, next)) :
    repliesToRead reply = isRead frame ∧ reply.Whole := by
  cases frame with
  | readReq page =>
      simp only [answer] at hanswer
      split at hanswer <;> cases hanswer
      · exact ⟨rfl, Frame.whole_of_not_console (by simp) (by simp)⟩
      · exact ⟨rfl, Frame.whole_of_not_console (by simp) (by simp)⟩
  | writeReq page data =>
      simp only [answer] at hanswer
      cases hanswer
      split
      · exact ⟨rfl, Frame.whole_of_not_console (by simp) (by simp)⟩
      · exact ⟨rfl, Frame.whole_of_not_console (by simp) (by simp)⟩
  | _ => cases hanswer

/-- The replies tell reads from writes in the order of the requests. -/
theorem map_repliesToRead_answers (len : ℕ) (img : F) (frames : List Frame) :
    (answers len img frames).1.map repliesToRead =
        (frames.filter isRequest).map isRead ∧
      ∀ reply ∈ (answers len img frames).1, reply.Whole := by
  induction frames generalizing img with
  | nil => simp [answers]
  | cons frame frames ih =>
      have hsome := answer_isSome len img frame
      rw [List.filter_cons, answers]
      cases hanswer : answer len img frame with
      | none =>
          rw [hanswer, Option.isSome_none] at hsome
          rw [← hsome, if_neg (by simp)]
          exact ih img
      | some result =>
          obtain ⟨page, reply, next⟩ := result
          rw [hanswer, Option.isSome_some] at hsome
          rw [← hsome, if_pos rfl]
          obtain ⟨hkind, hwhole⟩ := repliesToRead_answer hanswer
          obtain ⟨hkinds, hwholes⟩ := ih next
          constructor
          · rw [List.map_cons, List.map_cons, hkind, hkinds]
          · intro other hother
            rcases List.mem_cons.mp hother with rfl | htail
            · exact hwhole
            · exact hwholes other htail

/-! ## What one call answers -/

/-- The order in which `serve_once` answers what it holds: every read, then
every write. -/
def serveOrder (held : List Frame) : List Frame := held.filter isRead ++ held.filter isWrite

theorem nextRequest_eq_none {m : Mux} (hnext : nextRequest m = none) :
    serveOrder m.held = [] ∧ m.held.filter (! isRequest ·) = m.held := by
  rw [nextRequest, Option.or_eq_none_iff, Mux.takeMatching_eq_none,
    Mux.takeMatching_eq_none] at hnext
  obtain ⟨hread, hwrite⟩ := hnext
  constructor
  · rw [serveOrder, List.filter_eq_nil_iff.mpr (by simpa [isRead] using hread),
      List.filter_eq_nil_iff.mpr (by simpa [isWrite] using hwrite), List.append_nil]
  · rw [List.filter_eq_self]
    intro frame hframe
    have hnotRead := hread frame hframe
    have hnotWrite := hwrite frame hframe
    simpa [isRequest, isRead, isWrite] using ⟨hnotRead, hnotWrite⟩

/-- The frame taken next is the first in the order of service. -/
theorem nextRequest_eq_some {m next : Mux} {frame : Frame}
    (hnext : nextRequest m = some (frame, next)) :
    isRequest frame = true ∧ serveOrder m.held = frame :: serveOrder next.held ∧
      next.held.filter (! isRequest ·) = m.held.filter (! isRequest ·) ∧
      next = { m with held := next.held } := by
  have hsplit : ∃ front rest, m.held = front ++ frame :: rest ∧
      next = { m with held := front ++ rest } ∧
      ((isRead frame = true ∧ front.filter isRead = []) ∨
        (isWrite frame = true ∧ isRead frame = false ∧ front.filter isWrite = [] ∧
          (front ++ rest).filter isRead = [])) := by
    rcases Option.or_eq_some_iff.mp hnext with htake | ⟨hnone, htake⟩
    · obtain ⟨htype, front, rest, hheld, hfront, rfl⟩ := Mux.takeMatching_eq_some htake
      refine ⟨front, rest, hheld, rfl, .inl ⟨by simpa [isRead] using htype, ?_⟩⟩
      rw [List.filter_eq_nil_iff]
      simpa [isRead] using hfront
    · obtain ⟨htype, front, rest, hheld, hfront, rfl⟩ := Mux.takeMatching_eq_some htake
      rw [Mux.takeMatching_eq_none, hheld] at hnone
      refine ⟨front, rest, hheld, rfl, .inr ⟨by simpa [isWrite] using htype, ?_, ?_, ?_⟩⟩
      · simp [isRead, htype]
      · rw [List.filter_eq_nil_iff]
        simpa [isWrite] using hfront
      · rw [List.filter_eq_nil_iff]
        intro other hother
        have hne := hnone other (by
          rcases List.mem_append.mp hother with hin | hin
          · exact List.mem_append_left _ hin
          · exact List.mem_append_right _ (List.mem_cons_of_mem _ hin))
        simpa [isRead] using hne
  obtain ⟨front, rest, hheld, rfl, hkind⟩ := hsplit
  rcases hkind with ⟨hread, hfront⟩ | ⟨hwrite, hread, hfront, hothers⟩
  · have hwrite : isWrite frame = false := by
      simp only [isRead, decide_eq_true_eq] at hread
      simp [isWrite, hread]
    refine ⟨by simp [isRequest, hread], ?_, ?_, rfl⟩
    · simp [serveOrder, hheld, List.filter_append, hread, hwrite, hfront]
    · simp [hheld, List.filter_append, isRequest, hread]
  · rw [List.filter_append, List.append_eq_nil_iff] at hothers
    refine ⟨by simp [isRequest, hwrite], ?_, ?_, rfl⟩
    · simp [serveOrder, hheld, List.filter_append, hread, hwrite, hfront,
        hothers]
    · simp [hheld, List.filter_append, isRequest, hwrite]

/-- **The loop of `serve_once` answers every read it holds, then every write.** -/
theorem serveHeld_spec (len : ℕ) (s : Serving F) :
    (serveHeld len s).img = (answers len s.img (serveOrder s.mux.held)).2 ∧
      (serveHeld len s).out =
        s.out ++ (answers len s.img (serveOrder s.mux.held)).1.flatMap encode ∧
      (serveHeld len s).mux =
        { s.mux with held := s.mux.held.filter (! isRequest ·) } ∧
      (serveHeld len s).con = s.con := by
  fun_induction serveHeld len s with
  | case1 s hnext =>
      obtain ⟨horder, hheld⟩ := nextRequest_eq_none hnext
      simp [horder, hheld, answers]
  | case2 s frame mux hnext ih =>
      obtain ⟨hrequest, horder, hothers, hmux⟩ := nextRequest_eq_some hnext
      have hsome := answer_isSome len s.img frame
      rw [hrequest, Option.isSome_iff_exists] at hsome
      obtain ⟨⟨page, reply, img⟩, hanswer⟩ := hsome
      simp only [Serving.respond, hanswer] at ih ⊢
      obtain ⟨himg, hout, hmuxAfter, hcon⟩ := ih
      rw [horder, answers, hanswer]
      refine ⟨himg, ?_, ?_, hcon⟩
      · rw [hout, List.flatMap_cons, List.append_assoc]
      · rw [hmuxAfter, hothers, hmux]

end Baonix.Host
