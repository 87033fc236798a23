import Baonix.Lib.Scanning
import Baonix.Proto.Decoder

/-!
# The decoder as an incremental scanner

What `next_frame` removes from its buffer falls into four kinds of stretch: a
byte of noise, a SYNC pair that turned out to be noise, a frame, and a frame
with a good checksum that this build does not know.  `wire` is the scanner that
cuts a byte stream into these, one decision at a time; every call of
`next_frame` performs a number of its decisions.
-/

namespace Baonix.Proto

open Baonix.LittleEndian Baonix.Scanning

/-- One stretch removed from the front of the decoder's buffer. -/
inductive Token
  | noise (bytes : List Byte)
  | foreign (bytes : List Byte)
  | frame (bytes : List Byte) (frame : Frame)

namespace Token

def bytes : Token → List Byte
  | noise bytes => bytes
  | foreign bytes => bytes
  | frame bytes _ => bytes

def frame? : Token → Option Frame
  | .frame _ decoded => some decoded
  | _ => none

def noiseBytes : Token → List Byte
  | noise bytes => bytes
  | _ => []

end Token

/-- The frames a scan returned, in order. -/
def framesOf (tokens : List Token) : List Frame := tokens.filterMap Token.frame?

/-- The off-protocol bytes of a scan, in order. -/
def noiseOf (tokens : List Token) : List Byte := tokens.flatMap Token.noiseBytes

@[simp]
theorem framesOf_append (first second : List Token) :
    framesOf (first ++ second) = framesOf first ++ framesOf second :=
  List.filterMap_append

@[simp]
theorem noiseOf_append (first second : List Token) :
    noiseOf (first ++ second) = noiseOf first ++ noiseOf second :=
  List.flatMap_append

/-! ## The scanner -/

/-- The decision on a buffer that starts with SYNC. -/
def lookAtSync (buf : List Byte) : Option (ℕ × Token) :=
  if buf.length < header then none
  else if lenField buf > maxPayload then some (2, .noise (buf.take 2))
  else if buf.length < header + lenField buf + trailer then none
  else if crc32 (bodyField buf (lenField buf)) ≠ wantField buf (lenField buf) then
    some (2, .noise (buf.take 2))
  else
    let total := header + lenField buf + trailer
    match decodeBody (buf.getD 2 0) (payloadSlice buf (lenField buf)) with
    | some frame => some (total, .frame (buf.take total) frame)
    | none => some (total, .foreign (buf.take total))

/-- The decision on any buffer. -/
def look : List Byte → Option (ℕ × Token)
  | [] => none
  | [byte] => if byte = syncLo then none else some (1, .noise [byte])
  | first :: second :: rest =>
      if first = syncLo ∧ second = syncHi then lookAtSync (first :: second :: rest)
      else some (1, .noise [first])

theorem lookAtSync_bounds {buf : List Byte} {count : ℕ} {token : Token}
    (hlook : lookAtSync buf = some (count, token)) :
    0 < count ∧ count ≤ buf.length ∧ token.bytes = buf.take count := by
  unfold lookAtSync at hlook
  simp only [header, trailer] at hlook
  split at hlook
  · cases hlook
  split at hlook
  · cases hlook
    refine ⟨by omega, by omega, rfl⟩
  split at hlook
  · cases hlook
  split at hlook
  · cases hlook
    refine ⟨by omega, by omega, rfl⟩
  · split at hlook <;> cases hlook
    · refine ⟨by omega, by omega, rfl⟩
    · refine ⟨by omega, by omega, rfl⟩

theorem look_bounds {buf : List Byte} {count : ℕ} {token : Token}
    (hlook : look buf = some (count, token)) :
    0 < count ∧ count ≤ buf.length ∧ token.bytes = buf.take count := by
  match buf with
  | [] => cases hlook
  | [byte] =>
      simp only [look] at hlook
      split at hlook <;> cases hlook
      exact ⟨by omega, by simp, rfl⟩
  | first :: second :: rest =>
      simp only [look] at hlook
      split at hlook
      · exact lookAtSync_bounds hlook
      · cases hlook
        exact ⟨by omega, by simp, rfl⟩

/-! Every field read lies inside the bytes whose presence was checked, so later
bytes do not change it. -/

theorem lenField_append {buf : List Byte} (hheader : header ≤ buf.length)
    (more : List Byte) : lenField (buf ++ more) = lenField buf := by
  simp only [header] at hheader
  have hlow : (buf ++ more).getD 3 0 = buf.getD 3 0 :=
    List.getD_append buf more 0 3 (by omega)
  have hhigh : (buf ++ more).getD 4 0 = buf.getD 4 0 :=
    List.getD_append buf more 0 4 (by omega)
  rw [lenField, lenField, hlow, hhigh]

theorem slice_append {buf : List Byte} {start count : ℕ}
    (hslice : start + count ≤ buf.length) (more : List Byte) :
    ((buf ++ more).drop start).take count = (buf.drop start).take count := by
  rw [List.drop_append_of_le_length (by omega),
    List.take_append_of_le_length (by simp only [List.length_drop]; omega)]

theorem lookAtSync_append {buf : List Byte} {count : ℕ} {token : Token}
    (hlook : lookAtSync buf = some (count, token)) (more : List Byte) :
    lookAtSync (buf ++ more) = some (count, token) := by
  have hlong : header ≤ buf.length := by
    by_contra hshort
    simp only [lookAtSync, not_le.mp hshort, if_true] at hlook
    cases hlook
  have hheader : ¬ (buf ++ more).length < header := by
    rw [List.length_append]
    omega
  have hlen := lenField_append hlong more
  have htwo : (buf ++ more).take 2 = buf.take 2 :=
    List.take_append_of_le_length (by simp only [header] at hlong; omega)
  unfold lookAtSync at hlook ⊢
  rw [if_neg (by omega)] at hlook
  rw [if_neg hheader, hlen, htwo]
  by_cases hmax : lenField buf > maxPayload
  · rwa [if_pos hmax] at hlook ⊢
  rw [if_neg hmax] at hlook ⊢
  by_cases htotal : buf.length < header + lenField buf + trailer
  · rw [if_pos htotal] at hlook
    cases hlook
  have htotalMore : ¬ (buf ++ more).length < header + lenField buf + trailer := by
    rw [List.length_append]
    omega
  rw [if_neg htotal] at hlook
  rw [if_neg htotalMore]
  -- all the bytes the remaining tests look at are already in `buf`
  simp only [header, trailer] at htotal hlong
  have hbody : bodyField (buf ++ more) (lenField buf) = bodyField buf (lenField buf) :=
    slice_append (by simp only [header]; omega) more
  have hwant : wantField (buf ++ more) (lenField buf) = wantField buf (lenField buf) := by
    rw [wantField, wantField, slice_append (by simp only [header, trailer]; omega) more]
  have hpayload : payloadSlice (buf ++ more) (lenField buf) =
      payloadSlice buf (lenField buf) :=
    slice_append (by simp only [header]; omega) more
  have htype : (buf ++ more).getD 2 0 = buf.getD 2 0 :=
    List.getD_append buf more 0 2 (by omega)
  have htake : (buf ++ more).take (header + lenField buf + trailer) =
      buf.take (header + lenField buf + trailer) :=
    List.take_append_of_le_length (by simp only [header, trailer]; omega)
  rw [hbody, hwant, hpayload, htype]
  simp only [htake]
  exact hlook

theorem look_append {buf : List Byte} {count : ℕ} {token : Token}
    (hlook : look buf = some (count, token)) (more : List Byte) :
    look (buf ++ more) = some (count, token) := by
  match buf with
  | [] => cases hlook
  | [byte] =>
      simp only [look] at hlook
      split at hlook
      · cases hlook
      · rename_i hbyte
        cases more with
        | nil => simpa [look, hbyte] using hlook
        | cons next more => simpa [look, hbyte] using hlook
  | first :: second :: rest =>
      simp only [look, List.cons_append] at hlook ⊢
      split at hlook
      · rename_i hsync
        rw [if_pos hsync]
        exact lookAtSync_append hlook more
      · rename_i hsync
        rw [if_neg hsync]
        exact hlook

/-- The scanner of the wire format. -/
def wire : Scanner Byte Token where
  look := look
  look_pos hlook := (look_bounds hlook).1
  look_le hlook := (look_bounds hlook).2.1
  look_append := look_append

theorem wire_bytes {buf : List Byte} {count : ℕ} {token : Token}
    (hlook : wire.look buf = some (count, token)) : token.bytes = buf.take count :=
  (look_bounds hlook).2.2

/-! ## Hunting for SYNC -/

/-- The bytes up to the first SYNC are noise. -/
theorem scans_of_findSync {buf : List Byte} {start : ℕ}
    (hfind : findSync buf = some start) :
    ∃ tokens, Scans wire buf tokens (buf.drop start) ∧
      framesOf tokens = [] ∧ noiseOf tokens = buf.take start := by
  induction buf generalizing start with
  | nil => simp [findSync] at hfind
  | cons first rest ih =>
      match rest with
      | [] => simp [findSync] at hfind
      | second :: rest =>
          rw [findSync] at hfind
          split at hfind
          · cases hfind
            exact ⟨[], .refl _, rfl, rfl⟩
          · rename_i hsync
            obtain ⟨start', hstart', rfl⟩ := Option.map_eq_some_iff.mp hfind
            obtain ⟨tokens, hscan, hframes, hnoise⟩ := ih hstart'
            have hlook : wire.look (first :: second :: rest) =
                some (1, .noise [first]) := by
              simp [wire, look, hsync]
            refine ⟨.noise [first] :: tokens, .head hlook hscan, ?_, ?_⟩
            · simpa [framesOf, Token.frame?] using hframes
            · have : noiseOf (.noise [first] :: tokens) = first :: noiseOf tokens := by
                simp [noiseOf, Token.noiseBytes]
              rw [this, hnoise, List.take_succ_cons]

/-- Without a SYNC everything is noise, except a last byte that could be the
first half of one. -/
theorem scans_of_findSync_none {buf : List Byte} (hfind : findSync buf = none) :
    ∃ tokens rest, Scans wire buf tokens rest ∧ wire.look rest = none ∧
      framesOf tokens = [] ∧
      noiseOf tokens =
        buf.take (buf.length - if buf.getLast? = some syncLo then 1 else 0) ∧
      rest = buf.drop (buf.length - if buf.getLast? = some syncLo then 1 else 0) := by
  induction buf with
  | nil => exact ⟨[], [], .refl _, rfl, rfl, rfl, rfl⟩
  | cons first rest ih =>
      match rest with
      | [] =>
          by_cases hfirst : first = syncLo
          · subst hfirst
            exact ⟨[], [syncLo], .refl _, by simp [wire, look], rfl, by simp [noiseOf], by simp⟩
          · have hlook : wire.look [first] = some (1, .noise [first]) := by
              simp [wire, look, hfirst]
            exact ⟨[.noise [first]], [], .single hlook, rfl, rfl,
              by simp [noiseOf, Token.noiseBytes, hfirst], by simp [hfirst]⟩
      | second :: rest =>
          rw [findSync] at hfind
          split at hfind
          · cases hfind
          · rename_i hsync
            rw [Option.map_eq_none_iff] at hfind
            obtain ⟨tokens, final, hscan, hwait, hframes, hnoise, hfinal⟩ := ih hfind
            have hlook : wire.look (first :: second :: rest) =
                some (1, .noise [first]) := by
              simp [wire, look, hsync]
            refine ⟨.noise [first] :: tokens, final, .head hlook hscan, hwait, ?_, ?_, ?_⟩
            · simpa [framesOf, Token.frame?] using hframes
            · have hcons : noiseOf (.noise [first] :: tokens) = first :: noiseOf tokens := by
                simp [noiseOf, Token.noiseBytes]
              rw [hcons, hnoise, List.getLast?_cons_cons]
              split <;> simp
            · rw [hfinal, List.getLast?_cons_cons]
              split <;> simp

theorem findSync_drop {buf : List Byte} {start : ℕ} (hfind : findSync buf = some start) :
    ∃ rest, buf.drop start = syncLo :: syncHi :: rest := by
  induction buf generalizing start with
  | nil => simp [findSync] at hfind
  | cons first rest ih =>
      match rest with
      | [] => simp [findSync] at hfind
      | second :: rest =>
          rw [findSync] at hfind
          split at hfind
          · rename_i hsync
            cases hfind
            exact ⟨rest, by rw [hsync.1, hsync.2, List.drop_zero]⟩
          · obtain ⟨start', hstart', rfl⟩ := Option.map_eq_some_iff.mp hfind
            simpa using ih hstart'

/-- On a buffer that starts with SYNC the scanner takes the decision of the
loop body. -/
theorem wire_look_sync (rest : List Byte) :
    wire.look (syncLo :: syncHi :: rest) = lookAtSync (syncLo :: syncHi :: rest) := by
  simp [wire, look]

end Baonix.Proto
