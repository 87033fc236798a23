import Baonix.Host.Serve

/-!
# The order requests are answered in

Each call of `serve_once` answers the requests whose last byte its chunk
brought, reads before writes.  The server therefore behaves as if it answered
one request at a time in the order of arrival exactly when no chunk completes a
read behind a write.
-/

namespace Baonix.Host

open Baonix.LittleEndian Baonix.Scanning Baonix.Proto

/-- A frame the badge sends the server: a page request, or console output that
fits one frame. -/
def FromBadge (frame : Frame) : Prop :=
  frame.Whole ∧ (isRequest frame || ! frame.isHeld) = true

/-- The frames each read completes, `count` bytes of the stream having been read
before. -/
def batches (frames : List Frame) : ℕ → List (List Byte) → List (List Frame)
  | _, [] => []
  | count, chunk :: chunks =>
      (arrived frames (count + chunk.length)).drop (arrived frames count).length ::
        batches frames (count + chunk.length) chunks

/-- No read is completed behind a write. -/
def ReadsFirst (batch : List Frame) : Prop :=
  batch.Pairwise fun first second => ¬ (isWrite first = true ∧ isRead second = true)

/-- The image and the bytes sent are those of answering `frames` one at a time
in order. -/
def AnswersInOrder {F : Type*} [ImageFile F] (len : ℕ) (img : F) (frames : List Frame)
    (chunks : List (List Byte)) : Prop :=
  (serveShared len img chunks).img = (answers len img frames).2 ∧
    (serveShared len img chunks).out = (answers len img frames).1.flatMap encode

/-! ## Batches -/

theorem arrived_prefix (frames : List Frame) (count more : ℕ) :
    arrived frames count <+: arrived frames (count + more) := by
  induction frames generalizing count with
  | nil => exact List.prefix_rfl
  | cons frame frames ih =>
      rw [arrived, arrived]
      split
      · rename_i hcount
        have hsub : count + more - (encode frame).length =
            count - (encode frame).length + more := by omega
        rw [if_pos (by omega), hsub, List.prefix_cons_inj]
        exact ih _
      · exact List.nil_prefix

theorem arrived_all (frames : List Frame) {count : ℕ}
    (hcount : (frames.flatMap encode).length ≤ count) : arrived frames count = frames := by
  induction frames generalizing count with
  | nil => rfl
  | cons frame frames ih =>
      rw [List.flatMap_cons, List.length_append] at hcount
      rw [arrived, if_pos (by omega), ih (by omega)]

theorem arrived_append_batches (frames : List Frame) (count : ℕ) (chunks : List (List Byte)) :
    arrived frames count ++ (batches frames count chunks).flatten =
      arrived frames (count + chunks.flatten.length) := by
  induction chunks generalizing count with
  | nil => simp [batches]
  | cons chunk chunks ih =>
      obtain ⟨fresh, hfresh⟩ := arrived_prefix frames count chunk.length
      rw [batches, List.flatten_cons, ← hfresh, List.drop_left' rfl, ← List.append_assoc,
        hfresh, ih, List.flatten_cons, List.length_append, Nat.add_assoc]

theorem arrived_zero {frames : List Frame} (hframes : ∀ frame ∈ frames, frame.Whole) :
    arrived frames 0 = [] := by
  cases frames with
  | nil => rfl
  | cons frame frames =>
      have hlength := List.length_pos_iff.mpr
        (encode_ne_nil (hframes frame (List.mem_cons_self ..)))
      rw [arrived, if_neg (by omega)]

/-- Between them the reads complete every frame, in order. -/
theorem flatten_batches {frames : List Frame} {chunks : List (List Byte)}
    (hchunks : chunks.flatten = frames.flatMap encode) (hframes : ∀ frame ∈ frames, frame.Whole) :
    (batches frames 0 chunks).flatten = frames := by
  have htotal := arrived_append_batches frames 0 chunks
  rwa [arrived_zero hframes, List.nil_append, hchunks, Nat.zero_add, arrived_all frames le_rfl] at htotal

theorem mem_of_mem_batches {frames batch : List Frame} {count : ℕ}
    {chunks : List (List Byte)} (hbatch : batch ∈ batches frames count chunks)
    {frame : Frame} (hframe : frame ∈ batch) : frame ∈ frames := by
  have hall := arrived_append_batches frames count chunks
  have hmem : frame ∈ arrived frames (count + chunks.flatten.length) := by
    rw [← hall, List.mem_append, List.mem_flatten]
    exact .inr ⟨batch, hbatch, hframe⟩
  have hprefix := arrived_prefix frames (count + chunks.flatten.length)
    (frames.flatMap encode).length
  rw [arrived_all frames (Nat.le_add_left ..)] at hprefix
  exact hprefix.subset hmem

@[simp]
theorem length_encode_readReq (page : BitVec 32) : (encode (.readReq page)).length = 13 := by
  rw [encode_of_whole (Frame.whole_of_not_console (by simp) (by simp)), length_encodeFrameBody,
    Frame.payload, length_toBytes]
  rfl

@[simp]
theorem length_encode_writeReq (page : BitVec 32) (data : Page) :
    (encode (.writeReq page data)).length = 4109 := by
  rw [encode_of_whole (Frame.whole_of_not_console (by simp) (by simp)), length_encodeFrameBody,
    Frame.payload, List.length_append, length_toBytes, Page.length_bytes]
  rfl

/-! ## One read -/

/-- The decoder of a connection after `early` has been read: it waits for the
rest of a frame, and every request has been answered. -/
structure CaughtUp {F : Type*} (s : Serving F) (early : List Byte) : Prop where
  buf : s.mux.dec.buf = (run wire early).2
  held : s.mux.held = []

/-- The frames completed by the next read are the next batch. -/
theorem completed_eq {F : Type*} {frames : List Frame} (hframes : ∀ frame ∈ frames, frame.Whole)
    {s : Serving F} {early chunk late : List Byte} (hcaught : CaughtUp s early)
    (hstream : early ++ chunk ++ late = frames.flatMap encode) :
    s.mux.completed chunk =
        (arrived frames (early.length + chunk.length)).drop (arrived frames early.length).length ∧
      (s.mux.dec.push chunk).drain.2.buf = (run wire (early ++ chunk)).2 := by
  have hbuf : (s.mux.dec.push chunk).buf = (run wire early).2 ++ chunk := by
    rw [Decoder.push, hcaught.buf]
  have hlong := run_append wire early chunk
  have htakeEarly : (frames.flatMap encode).take early.length = early := by
    rw [← hstream, List.append_assoc, List.take_left' rfl]
  have htakeBoth : (frames.flatMap encode).take (early.length + chunk.length) =
      early ++ chunk := by
    rw [← hstream, List.take_left' (List.length_append ..)]
  have hearly := run_take hframes early.length
  have hboth := run_take hframes (early.length + chunk.length)
  rw [htakeEarly] at hearly
  rw [htakeBoth, hlong, framesOf_append, hearly] at hboth
  constructor
  · rw [Mux.completed, (Decoder.drain_eq_run _).1, hbuf, ← hboth, List.drop_left' rfl]
  · rw [(Decoder.drain_eq_run _).2, hbuf, hlong]

theorem serveOrder_append_filter_isHeld (held batch : List Frame) :
    serveOrder (held ++ batch.filter Frame.isHeld) = serveOrder (held ++ batch) := by
  have hread (frame : Frame) : (frame.isHeld && isRead frame) = isRead frame := by
    cases frame <;> rfl
  have hwrite (frame : Frame) : (frame.isHeld && isWrite frame) = isWrite frame := by
    cases frame <;> rfl
  simp only [serveOrder, List.filter_append, List.filter_filter, Bool.and_comm _ (Frame.isHeld _),
    hread, hwrite]

theorem serveOrder_filter_isHeld (batch : List Frame) :
    serveOrder (batch.filter Frame.isHeld) = serveOrder batch :=
  serveOrder_append_filter_isHeld [] batch

variable {F : Type*} [ImageFile F]

theorem serveOnce_spec (len : ℕ) {frames : List Frame} (hframes : ∀ frame ∈ frames, FromBadge frame)
    {s : Serving F} {early chunk late : List Byte} (hcaught : CaughtUp s early)
    (hstream : early ++ chunk ++ late = frames.flatMap encode) :
    let batch :=
      (arrived frames (early.length + chunk.length)).drop (arrived frames early.length).length
    CaughtUp (serveOnce len s chunk) (early ++ chunk) ∧
      (serveOnce len s chunk).img = (answers len s.img (serveOrder batch)).2 ∧
      (serveOnce len s chunk).out =
        s.out ++ (answers len s.img (serveOrder batch)).1.flatMap encode := by
  intro batch
  have hwhole (frame : Frame) (hframe : frame ∈ frames) : frame.Whole :=
    (hframes frame hframe).1
  obtain ⟨hcompleted, hbuf⟩ := completed_eq hwhole hcaught hstream
  obtain ⟨himg, hout, hmux, -⟩ :=
    serveHeld_spec len { s with mux := s.mux.push chunk, answered := [] }
  have hheld : (s.mux.push chunk).held = batch.filter Frame.isHeld := by
    rw [Mux.held_push, hcaught.held, List.nil_append, hcompleted]
  rw [hheld, serveOrder_filter_isHeld] at himg hout
  -- nothing but requests is ever held
  have hothers : (batch.filter Frame.isHeld).filter (! isRequest ·) = [] := by
    rw [List.filter_filter, List.filter_eq_nil_iff]
    intro frame hframe
    have hbatch : batch ∈ batches frames early.length [chunk] := List.mem_singleton_self _
    have hmem : frame ∈ frames := mem_of_mem_batches hbatch hframe
    have hkind := (hframes frame hmem).2
    cases hrequest : isRequest frame
    · rw [hrequest, Bool.false_or, Bool.not_eq_true'] at hkind
      simpa using hkind
    · simp
  refine ⟨⟨?_, ?_⟩, himg, hout⟩
  · simp only [serveOnce, hmux, Mux.takeConsole, Mux.takeNoise, Decoder.takeNoise, Mux.dec_push]
    exact hbuf
  · simp only [serveOnce, hmux, Mux.takeConsole, Mux.takeNoise, hheld]
    exact hothers

/-! ## A connection -/

/-- What the server does over a connection, from the point where it has caught
up with `early`. -/
theorem foldl_serveOnce (len : ℕ) {frames : List Frame}
    (hframes : ∀ frame ∈ frames, FromBadge frame) (chunks : List (List Byte))
    {s : Serving F} {early : List Byte} (hcaught : CaughtUp s early)
    (hstream : early ++ chunks.flatten = frames.flatMap encode) :
    (chunks.foldl (serveOnce len) s).img =
        (answers len s.img ((batches frames early.length chunks).flatMap serveOrder)).2 ∧
      (chunks.foldl (serveOnce len) s).out = s.out ++
        (answers len s.img
          ((batches frames early.length chunks).flatMap serveOrder)).1.flatMap encode := by
  induction chunks generalizing s early with
  | nil => simp [batches, answers]
  | cons chunk chunks ih =>
      rw [List.flatten_cons, ← List.append_assoc] at hstream
      obtain ⟨hnext, himg, hout⟩ := serveOnce_spec len hframes hcaught hstream
      obtain ⟨himgRest, houtRest⟩ := ih hnext hstream
      rw [List.length_append, himg] at himgRest houtRest
      rw [List.foldl_cons, batches, List.flatMap_cons, answers_append]
      constructor
      · exact himgRest
      · rw [houtRest, hout, List.flatMap_append, List.append_assoc]

theorem serveShared_spec (len : ℕ) (img : F) {frames : List Frame}
    (hframes : ∀ frame ∈ frames, FromBadge frame) {chunks : List (List Byte)}
    (hchunks : chunks.flatten = frames.flatMap encode) :
    (serveShared len img chunks).img =
        (answers len img ((batches frames 0 chunks).flatMap serveOrder)).2 ∧
      (serveShared len img chunks).out =
        (answers len img ((batches frames 0 chunks).flatMap serveOrder)).1.flatMap encode := by
  have hcaught : CaughtUp (opened img) [] := by
    constructor
    · rw [run_eq_of_scans (.refl []) rfl]
      rfl
    · rfl
  have hrun := foldl_serveOnce len hframes chunks hcaught hchunks
  simpa [serveShared, opened] using hrun

/-! ## When the order of service is the order of arrival -/

theorem serveOrder_of_readsFirst {batch : List Frame} (hbatch : ReadsFirst batch) :
    serveOrder batch = batch.filter isRequest := by
  induction batch with
  | nil => rfl
  | cons frame batch ih =>
      obtain ⟨hhead, htail⟩ := List.pairwise_cons.mp hbatch
      have hrest := ih htail
      rw [serveOrder] at hrest ⊢
      by_cases hwrite : isWrite frame = true
      · have hreads : batch.filter isRead = [] := by
          rw [List.filter_eq_nil_iff]
          intro other hother hread
          exact hhead other hother ⟨hwrite, hread⟩
        have hread : isRead frame = false := by
          simp only [isWrite, decide_eq_true_eq] at hwrite
          simp [isRead, hwrite]
        rw [hreads, List.nil_append] at hrest
        simp [isRequest, hwrite, hread, hreads, hrest]
      · by_cases hread : isRead frame = true
        · simp [isRequest, hwrite, hread, hrest]
        · simp [isRequest, hwrite, hread, hrest]

/-- If the requests of a batch stand in the order they are served in, as far as
their kinds go, its reads come first. -/
theorem readsFirst_of_map {batch : List Frame}
    (hkinds : (serveOrder batch).map isRead = (batch.filter isRequest).map isRead) :
    ReadsFirst batch := by
  have hsorted : ((serveOrder batch).map isRead).Pairwise fun first second =>
      second = true → first = true := by
    rw [serveOrder, List.pairwise_map, List.pairwise_append]
    refine ⟨?_, ?_, ?_⟩
    · apply List.pairwise_of_forall_mem_list
      intro first hfirst second _ _
      exact (List.mem_filter.mp hfirst).2
    · apply List.pairwise_of_forall_mem_list
      intro first _ second hsecond hread
      have hwrite := (List.mem_filter.mp hsecond).2
      simp only [isWrite, isRead, decide_eq_true_eq] at hwrite hread
      rw [hwrite] at hread
      exact absurd hread (by decide)
    · intro first hfirst second _ _
      exact (List.mem_filter.mp hfirst).2
  rw [hkinds, List.pairwise_map, List.pairwise_filter] at hsorted
  apply hsorted.imp
  intro first second hordered hovertakes
  have hread := hordered (by simp [isRequest, hovertakes.1]) (by simp [isRequest, hovertakes.2])
    hovertakes.2
  have hwrite := hovertakes.1
  simp only [isWrite, isRead, decide_eq_true_eq] at hwrite hread
  rw [hwrite] at hread
  exact absurd hread (by decide)

/-- Streams of whole frames are told apart by their bytes. -/
theorem flatMap_encode_injective {first second : List Frame}
    (hfirst : ∀ frame ∈ first, frame.Whole) (hsecond : ∀ frame ∈ second, frame.Whole)
    (hbytes : first.flatMap encode = second.flatMap encode) : first = second := by
  have hleft := scans_encode_whole hfirst []
  have hright := scans_encode_whole hsecond []
  rw [hbytes] at hleft
  obtain ⟨htokens, -⟩ := hleft.waits_unique rfl hright rfl
  have hframes := congrArg framesOf htokens
  rwa [framesOf_frames, framesOf_frames] at hframes

/-- Lists cut into pieces of equal lengths agree piece by piece. -/
theorem eq_of_flatMap_eq {α β : Type*} {first second : α → List β} {pieces : List α}
    (hlength : ∀ piece ∈ pieces, (first piece).length = (second piece).length)
    (hequal : pieces.flatMap first = pieces.flatMap second) :
    ∀ piece ∈ pieces, first piece = second piece := by
  induction pieces with
  | nil => simp
  | cons head pieces ih =>
      rw [List.flatMap_cons, List.flatMap_cons] at hequal
      obtain ⟨hhead, htail⟩ :=
        List.append_inj hequal (hlength head (List.mem_cons_self ..))
      intro piece hpiece
      rcases List.mem_cons.mp hpiece with rfl | hmem
      · exact hhead
      · exact ih (fun other hother => hlength other (List.mem_cons_of_mem _ hother)) htail
          piece hmem

theorem length_serveOrder (batch : List Frame) :
    (serveOrder batch).length = (batch.filter isRequest).length := by
  induction batch with
  | nil => rfl
  | cons frame batch ih =>
      rw [serveOrder, List.length_append] at ih ⊢
      have hdisjoint : ¬ (isRead frame = true ∧ isWrite frame = true) := by
        rintro ⟨hread, hwrite⟩
        simp only [isWrite, isRead, decide_eq_true_eq] at hwrite hread
        rw [hwrite] at hread
        exact absurd hread (by decide)
      by_cases hread : isRead frame = true
      · have hwrite : isWrite frame = false := by simpa [hread] using hdisjoint
        simp [isRequest, hread, hwrite, ← ih, Nat.add_right_comm]
      · by_cases hwrite : isWrite frame = true
        · simp [isRequest, hread, hwrite, ← ih, Nat.add_assoc]
        · simp [isRequest, hread, hwrite, ih]

theorem filter_serveOrder (batch : List Frame) :
    (serveOrder batch).filter isRequest = serveOrder batch := by
  rw [List.filter_eq_self]
  intro frame hframe
  rcases List.mem_append.mp hframe with hread | hwrite
  · simp [isRequest, (List.mem_filter.mp hread).2]
  · simp [isRequest, (List.mem_filter.mp hwrite).2]

theorem answers_batches (len : ℕ) (img : F) {frames : List Frame} {chunks : List (List Byte)}
    (hbatches : ∀ batch ∈ batches frames 0 chunks, ReadsFirst batch)
    (hflatten : (batches frames 0 chunks).flatten = frames) :
    answers len img ((batches frames 0 chunks).flatMap serveOrder) = answers len img frames := by
  have hserved : (batches frames 0 chunks).flatMap serveOrder = frames.filter isRequest := by
    calc (batches frames 0 chunks).flatMap serveOrder
        = (batches frames 0 chunks).flatMap fun batch => batch.filter isRequest := by
          apply List.flatMap_congr
          intro batch hbatch
          exact serveOrder_of_readsFirst (hbatches batch hbatch)
      _ = (batches frames 0 chunks).flatten.filter isRequest := by
          rw [List.filter_flatten, List.flatMap_def]
      _ = frames.filter isRequest := by rw [hflatten]
  rw [hserved, answers_filter]

/-- A read that overtook a write of its own chunk shows in the replies. -/
theorem readsFirst_of_answersInOrder {len : ℕ} {img : F} {frames : List Frame}
    (hframes : ∀ frame ∈ frames, FromBadge frame) {chunks : List (List Byte)}
    (hchunks : chunks.flatten = frames.flatMap encode)
    (horder : AnswersInOrder len img frames chunks) :
    ∀ batch ∈ batches frames 0 chunks, ReadsFirst batch := by
  have hflatten := flatten_batches hchunks fun frame hframe => (hframes frame hframe).1
  obtain ⟨-, hout⟩ := serveShared_spec len img hframes hchunks
  rw [horder.2] at hout
  obtain ⟨hkinds, hwhole⟩ := map_repliesToRead_answers len img frames
  obtain ⟨hkindsServed, hwholeServed⟩ :=
    map_repliesToRead_answers len img ((batches frames 0 chunks).flatMap serveOrder)
  have hreplies := flatMap_encode_injective hwhole hwholeServed hout
  rw [hreplies, hkindsServed] at hkinds
  have hpieces : (batches frames 0 chunks).flatMap (fun batch => (serveOrder batch).map isRead) =
      (batches frames 0 chunks).flatMap fun batch => (batch.filter isRequest).map isRead := by
    calc (batches frames 0 chunks).flatMap (fun batch => (serveOrder batch).map isRead)
        = (((batches frames 0 chunks).flatMap serveOrder).filter isRequest).map isRead := by
          rw [List.filter_flatMap, List.map_flatMap]
          apply List.flatMap_congr
          intro batch _
          rw [filter_serveOrder]
      _ = (frames.filter isRequest).map isRead := hkinds
      _ = ((batches frames 0 chunks).flatten.filter isRequest).map isRead := by rw [hflatten]
      _ = (batches frames 0 chunks).flatMap fun batch => (batch.filter isRequest).map isRead := by
          rw [List.filter_flatten, List.map_flatten, List.map_map, List.flatMap_def]
          rfl
  intro batch hbatch
  apply readsFirst_of_map
  apply eq_of_flatMap_eq _ hpieces batch hbatch
  intro other _
  rw [List.length_map, List.length_map, length_serveOrder]

/-- **When the server answers in order.**  Whatever the image file does and
however the stream was read, the image left and the replies sent are those of
answering the requests one at a time in the order they arrived, exactly when no
single read completed a `ReadReq` behind a `WriteReq`. -/
theorem answersInOrder_iff (len : ℕ) (img : F) (frames : List Frame)
    (hframes : ∀ frame ∈ frames, FromBadge frame) (chunks : List (List Byte))
    (hchunks : chunks.flatten = frames.flatMap encode) :
    AnswersInOrder len img frames chunks ↔
      ∀ batch ∈ batches frames 0 chunks, ReadsFirst batch := by
  constructor
  · exact readsFirst_of_answersInOrder hframes hchunks
  · intro hbatches
    have hflatten := flatten_batches hchunks fun frame hframe => (hframes frame hframe).1
    rw [AnswersInOrder, ← answers_batches len img hbatches hflatten]
    exact serveShared_spec len img hframes hchunks

/-- A flat image file, in which I/O never fails and reading past the end is an
unexpected end of file. -/
instance : ImageFile (List Byte) where
  readExact img start :=
    (if start + pageSize ≤ img.length then
      some fun index => img.getD (start + index) 0 else none, img)
  writeAll img start data :=
    (true, img.take start ++ data.bytes ++ img.drop (start + pageSize))

/-- A read and a write of the same page, in one read. -/
theorem answersInOrder_readThenWrite :
    AnswersInOrder 4096 (List.replicate 4096 (0 : Byte)) [.readReq 0, .writeReq 0 fun _ => 1]
      [[Frame.readReq 0, .writeReq 0 fun _ => 1].flatMap encode] := by
  have hframes : ∀ frame ∈ [Frame.readReq 0, .writeReq 0 fun _ => 1], FromBadge frame := by
    intro frame hframe
    rcases List.mem_pair.mp hframe with rfl | rfl
    · exact ⟨Frame.whole_of_not_console (by simp) (by simp), rfl⟩
    · exact ⟨Frame.whole_of_not_console (by simp) (by simp), rfl⟩
  apply (answersInOrder_iff _ _ _ hframes _ (List.flatten_singleton ..)).mpr
  intro batch hbatch
  rw [batches, batches, List.mem_singleton, Nat.zero_add, arrived_all _ le_rfl] at hbatch
  rw [hbatch]
  apply List.Pairwise.drop
  simp [isWrite, isRead, Frame.typeByte]

/-- A write and a read of the same page. -/
def writeThenRead : List Frame := [.writeReq 0 fun _ => 1, .readReq 0]

/-- The stream as reads of at most 4096 bytes bring it: the `WriteReq` of 4109
bytes and the `ReadReq` behind it are both completed by the second. -/
def writeThenReadChunks : List (List Byte) :=
  [(writeThenRead.flatMap encode).take 4096, (writeThenRead.flatMap encode).drop 4096]

theorem batches_writeThenRead :
    batches writeThenRead 0 writeThenReadChunks = [[], writeThenRead] := by
  simp [batches, writeThenReadChunks, writeThenRead, arrived]

/-- The read is answered with what the page held before the write. -/
theorem not_answersInOrder_writeThenRead :
    ¬ AnswersInOrder 4096 (List.replicate 4096 (0 : Byte)) writeThenRead
        writeThenReadChunks := by
  intro horder
  have hframes : ∀ frame ∈ writeThenRead, FromBadge frame := by
    intro frame hframe
    rcases List.mem_pair.mp hframe with rfl | rfl
    · exact ⟨Frame.whole_of_not_console (by simp) (by simp), rfl⟩
    · exact ⟨Frame.whole_of_not_console (by simp) (by simp), rfl⟩
  have hflatten : writeThenReadChunks.flatten = writeThenRead.flatMap encode := by
    simp only [writeThenReadChunks, List.flatten_cons, List.flatten_nil, List.append_nil,
      List.take_append_drop]
  have hreads := readsFirst_of_answersInOrder hframes hflatten horder
  rw [batches_writeThenRead] at hreads
  have hbatch := hreads writeThenRead (by simp)
  simp [ReadsFirst, writeThenRead, isWrite, isRead, Frame.typeByte] at hbatch

end Baonix.Host
