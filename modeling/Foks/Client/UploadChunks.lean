/-
  How an upload cuts its source into chunks (`foks-client`, `kv/support.rs`).

  Whether a chunk is the last one shows only when the reader has nothing more, so each call reads
  one byte beyond the chunk and hands it to the next call. A reader may return fewer bytes than it
  is asked for, in any way: it is the rest of its stream with the size of each read to come, or the
  error of that read. `uploadChunks_complete` says that no way of reading loses a byte or ends a
  file too early or too late.
-/
import Foks.Lib.Outcome

namespace Foks.Client

open Foks.Lib

def maxUploadChunk : Nat := 4 * 1024 * 1024

theorem maxUploadChunk_pos : 0 < maxUploadChunk := by decide

variable {ε : Type}

/-- A reader: what it has not returned yet, and how each of its next reads goes. -/
structure Reader (ε : Type) where
  rest : List UInt8
  reads : Nat → Except ε Nat

namespace Reader

/-- A read into a buffer. It returns at least one byte, unless there is none left or no room. -/
def read (reader : Reader ε) (room : Nat) : Except ε (List UInt8 × Reader ε) := do
  let size ← reader.reads 0
  let count := min (max size 1) room
  .ok (reader.rest.take count, ⟨reader.rest.drop count, fun i => reader.reads (i + 1)⟩)

/-- The readers of a stream that never fail. -/
def splits (stream : List UInt8) (sizes : Nat → Nat) : Reader ε := ⟨stream, fun i => .ok (sizes i)⟩

end Reader

/-- What one call returns: a chunk, the bytes read beyond it, and whether it is the last one. -/
structure UploadRead (ε : Type) where
  chunk : List UInt8
  carry : List UInt8
  finalChunk : Bool
  reader : Reader ε

def readKvUploadChunkWithCarry (reader : Reader ε) (bytes : List UInt8) :
    Except ε (UploadRead ε) :=
  if h : bytes.length ≤ maxUploadChunk then
    let remaining := maxUploadChunk + 1 - bytes.length
    match reader.read (min remaining (64 * 1024)) with
    | .error e => .error e
    | .ok (read, reader) =>
      if hread : read = [] then .ok ⟨bytes, [], true, reader⟩
      else readKvUploadChunkWithCarry reader (bytes ++ read)
  else .ok ⟨bytes.take maxUploadChunk, bytes.drop maxUploadChunk, false, reader⟩
termination_by maxUploadChunk + 1 - bytes.length
decreasing_by
  have hpos := List.length_pos_iff.mpr hread
  rw [List.length_append]
  omega

/-- The chunks of repeated calls, each with its mark, up to the last chunk or the limit on the
    calls. The first call of an upload has no carry (`read_kv_upload_chunk`). -/
def uploadChunks (reader : Reader ε) (carry : List UInt8) :
    Nat → Except ε (List (List UInt8 × Bool))
  | 0 => .ok []
  | calls + 1 => do
    let next ← readKvUploadChunkWithCarry reader carry
    if next.finalChunk then .ok [(next.chunk, true)]
    else do
      let later ← uploadChunks next.reader next.carry calls
      .ok ((next.chunk, false) :: later)

/-- What one call leaves of the bytes before it: a last chunk takes all of them, and any other one
    is full and leaves some. -/
structure Cut (before : List UInt8) (result : UploadRead ε) (after : List UInt8) : Prop where
  bytes : result.chunk ++ (result.carry ++ after) = before
  final : result.finalChunk = true →
    result.carry ++ after = [] ∧ result.chunk.length ≤ maxUploadChunk
  full : result.finalChunk = false →
    result.carry ≠ [] ∧ result.chunk.length = maxUploadChunk

/-- A call on a reader that never fails returns, whatever the sizes of the reads are. -/
theorem readKvUploadChunkWithCarry_cut (rest bytes : List UInt8) (sizes : Nat → Nat) :
    ∃ (result : UploadRead ε) (after : List UInt8) (sizes' : Nat → Nat),
      readKvUploadChunkWithCarry (.splits rest sizes) bytes = .ok result ∧
      result.reader = .splits after sizes' ∧ Cut (bytes ++ rest) result after := by
  -- Each read that is not the last one of the call leaves less room.
  induction hroom : maxUploadChunk + 1 - bytes.length using Nat.strongRecOn
    generalizing rest bytes sizes with
  | _ room ih =>
    rw [readKvUploadChunkWithCarry]
    by_cases hlen : bytes.length ≤ maxUploadChunk
    · rw [dif_pos hlen]
      obtain ⟨count, hcount, hread⟩ : ∃ count, 0 < count ∧
          (Reader.splits rest sizes : Reader ε).read (min room (64 * 1024)) =
            .ok (rest.take count, .splits (rest.drop count) fun i => sizes (i + 1)) :=
        ⟨_, by omega, rfl⟩
      simp only [hroom, hread]
      by_cases hnone : rest = []
      · subst hnone
        rw [dif_pos List.take_nil, List.drop_nil]
        exact ⟨_, [], _, rfl, rfl, ⟨rfl, fun _ => ⟨rfl, hlen⟩, nofun⟩⟩
      · have htaken : rest.take count ≠ [] := by
          simpa [List.take_eq_nil_iff, hnone] using Nat.ne_of_gt hcount
        have hpos := List.length_pos_iff.mpr htaken
        obtain ⟨result, after, sizes', hresult, hreader, hcut⟩ :=
          ih _ (by rw [List.length_append]; omega) (rest.drop count) (bytes ++ rest.take count)
            (fun i => sizes (i + 1)) rfl
        rw [List.append_assoc, List.take_append_drop] at hcut
        exact ⟨result, after, sizes', by rw [dif_neg htaken, hresult], hreader, hcut⟩
    · rw [dif_neg hlen]
      refine ⟨_, rest, sizes, rfl, rfl, ⟨?_, nofun, fun _ => ⟨?_, ?_⟩⟩⟩
      · rw [← List.append_assoc, List.take_append_drop]
      · exact List.ne_nil_of_length_pos (by rw [List.length_drop]; omega)
      · rw [List.length_take]
        omega

/-- Whatever the sizes of the reads are, the calls return all bytes: full chunks, then one chunk
    that is not larger and alone is marked as the last one. It is empty only if there is nothing to
    read, so that a stream of whole chunks ends with a full one. -/
theorem uploadChunks_complete (carry rest : List UInt8) (sizes : Nat → Nat) :
    ∃ (chunks : List (List UInt8)) (last : List UInt8),
      chunks.flatten ++ last = carry ++ rest ∧ (∀ chunk ∈ chunks, chunk.length = maxUploadChunk) ∧
      last.length ≤ maxUploadChunk ∧ (last = [] → carry ++ rest = []) ∧
      ∀ calls, (carry ++ rest).length < calls →
        uploadChunks (.splits rest sizes : Reader ε) carry calls =
          .ok (chunks.map (·, false) ++ [(last, true)]) := by
  -- A chunk that is not the last one is not empty, so that there is less to read after it.
  induction hlen : (carry ++ rest).length using Nat.strongRecOn
    generalizing carry rest sizes with
  | _ length ih =>
    obtain ⟨result, after, sizes', hresult, hreader, hcut⟩ :=
      @readKvUploadChunkWithCarry_cut ε rest carry sizes
    have hbytes := hcut.bytes
    have hlength := congrArg List.length hbytes
    rw [List.length_append] at hlength
    cases hfinal : result.finalChunk with
    | true =>
      obtain ⟨hnothing, hle⟩ := hcut.final hfinal
      rw [hnothing, List.append_nil] at hbytes
      refine ⟨[], result.chunk, hbytes, nofun, hle, fun h => hbytes ▸ h, fun calls hcalls => ?_⟩
      obtain ⟨calls, rfl⟩ := Nat.exists_eq_add_of_lt hcalls
      simp [uploadChunks, hresult, hfinal]
    | false =>
      obtain ⟨hcarry, hfull⟩ := hcut.full hfinal
      have hpos := maxUploadChunk_pos
      obtain ⟨chunks, last, hchunks, hsizes, hle, hlast, hrun⟩ :=
        ih _ (by omega) result.carry after sizes' rfl
      refine ⟨result.chunk :: chunks, last, ?_, List.forall_mem_cons.mpr ⟨hfull, hsizes⟩, hle,
        fun h => ?_, fun calls hcalls => ?_⟩
      · rw [List.flatten_cons, List.append_assoc, hchunks, hbytes]
      · exact absurd (List.append_eq_nil_iff.mp (hlast h)).1 hcarry
      · obtain ⟨calls, rfl⟩ := Nat.exists_eq_add_of_lt hcalls
        rw [uploadChunks, hresult, ok_bind, hfinal, hreader, hrun _ (by omega)]
        rfl

end Foks.Client
