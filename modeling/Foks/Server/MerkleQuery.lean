/-
  The `getHistoricalRoots` request: the argument the client writes (`foks-rpc`, `merkle.rs`) and
  the server's reading of it (`foks-server`, `services/merkle_query.rs`).

  `advance_merkle_root` puts both lists of `merkle_history_requirements` into one request. The
  server takes lists of at most 64 epochs, which the hashes of some pairs of epochs exceed; the
  count of skip pointers says which.
-/
import Foks.Verify.HistoryLength

namespace Foks.Server

open Foks.Lib Foks.Snowpack Foks.Verify
open Foks.Proto (EntityId entityHost listValue)

/-! ## The argument -/

/-- The argument of `encode_get_historical_merkle_roots_request`; the call around it adds the
    protocol, the method and the sequence number. -/
def historicalRootsArgument (host : EntityId) (fullEpochs hashEpochs : List UInt64) :
    Except Snowpack.Error (List UInt8) :=
  encode (.array [.binary host.bytes, listValue (fullEpochs.map Value.unsigned),
    listValue (hashEpochs.map Value.unsigned)])

/-- `malformed` is a bad argument with the codec's own message. -/
inductive RpcStatus where
  | malformed (error : Snowpack.Error)
  | badArguments (message : String)
  | notFound (message : String)
  deriving DecidableEq

def validateHostValueAgainst (host : Value) (expectedHost : List UInt8) : Except RpcStatus Unit :=
  match host with
  | .binary bytes =>
    if bytes.length ≠ 33 ∨ bytes.head? ≠ some entityHost then
      .error (.badArguments "host argument is not a HostID")
    else if bytes ≠ expectedHost then .error (.notFound "host not found")
    else .ok ()
  | _ => .error (.badArguments "host argument is not binary")

def validateOptionalHostValueAgainst (host : Value) (expectedHost : List UInt8) :
    Except RpcStatus Unit :=
  if host = .null then .ok () else validateHostValueAgainst host expectedHost

def decodeEpoch (value : Value) : Except RpcStatus UInt64 :=
  match value with
  | .unsigned epoch => .ok epoch
  | _ => .error (.badArguments "historical root epoch is not unsigned")

def decodeEpochs (value : Value) : Except RpcStatus (List UInt64) :=
  match value with
  | .null => .ok []
  | .array values =>
    if values.length ≤ 64 then values.mapM decodeEpoch
    else .error (.badArguments "too many historical root epochs")
  | _ => .error (.badArguments "historical root epochs are not a list")

def decodeHistoricalRootsArgument (argument expectedHost : List UInt8) :
    Except RpcStatus (List UInt64 × List UInt64) := do
  let wire ← (decode argument).mapError .malformed
  match wire with
  | .array [host, fullEpochs, hashEpochs] =>
    let _ ← validateOptionalHostValueAgainst host expectedHost
    let full ← decodeEpochs fullEpochs
    let hashes ← decodeEpochs hashEpochs
    .ok (full, hashes)
  | .array _ => .error (.badArguments "historical roots argument has the wrong shape")
  | _ => .error (.badArguments "historical roots argument is not a struct")

/-! ## What the server accepts -/

theorem decodeEpochs_listValue {epochs read : List UInt64} :
    decodeEpochs (listValue (epochs.map Value.unsigned)) = .ok read ↔
      epochs.length ≤ 64 ∧ read = epochs := by
  cases epochs with
  | nil => simp [listValue, decodeEpochs, eq_comm]
  | cons e es =>
    have hmap : ((e :: es).map Value.unsigned).mapM decodeEpoch = .ok (e :: es) := by
      rw [mapM_eq_ok_iff, List.forall₂_map_left_iff]
      exact List.forall₂_same.mpr fun _ _ => rfl
    have hlist : listValue ((e :: es).map Value.unsigned) =
        .array ((e :: es).map Value.unsigned) := rfl
    rw [hlist, decodeEpochs, List.length_map]
    split
    · rename_i hlen
      rw [hmap]
      exact ⟨fun heq => ⟨hlen, (Except.ok.inj heq).symm⟩, fun heq => by rw [heq.2]⟩
    · rename_i hlen
      exact iff_of_false (fun heq => by cases heq) (fun heq => hlen heq.1)

/-- The client's own bytes for a host are read back, lists of at most 64 epochs with them. -/
theorem decodeHistoricalRootsArgument_iff {host : EntityId} (hhost : host.entityType = entityHost)
    {fullEpochs hashEpochs : List UInt64} (hfull : fullEpochs.length ≤ 65535)
    (hhash : hashEpochs.length ≤ 65535) :
    ∃ argument, historicalRootsArgument host fullEpochs hashEpochs = .ok argument ∧
      ∀ read, decodeHistoricalRootsArgument argument host.bytes = .ok read ↔
        (fullEpochs.length ≤ 64 ∧ hashEpochs.length ≤ 64) ∧ read = (fullEpochs, hashEpochs) := by
  obtain ⟨hhead, hlen⟩ := host.bytes_of_type hhost
  have hlen : host.bytes.length = 33 := Option.some.inj (hlen.trans (by decide))
  have hepochs (epochs : List UInt64) (h : epochs.length ≤ 65535) :
      Fits 1 (listValue (epochs.map Value.unsigned)) ∧
        (listValue (epochs.map Value.unsigned)).size = 1 + epochs.length := by
    refine ⟨Proto.fits_listValue.mpr ⟨by decide, ?_, (fitsAll_iff _ _).mpr fun v hv => ?_⟩, ?_⟩
    · rw [List.length_map]
      unfold u32Max
      omega
    · obtain ⟨e, -, rfl⟩ := List.mem_map.mp hv
      exact (by decide : 2 ≤ maxDepth)
    · rw [Proto.size_listValue, Value.sizes_eq_sum, List.map_map,
        List.sum_eq_card_nsmul _ 1 (by simp [Value.size])]
      simp
  obtain ⟨hfullFits, hfullSize⟩ := hepochs fullEpochs hfull
  obtain ⟨hhashFits, hhashSize⟩ := hepochs hashEpochs hhash
  have hcod : Codable (.array [.binary host.bytes, listValue (fullEpochs.map Value.unsigned),
      listValue (hashEpochs.map Value.unsigned)]) := by
    refine ⟨⟨by decide, by simp, by simp [u32Max], ⟨by decide, by unfold u32Max; omega⟩, hfullFits,
      hhashFits, trivial⟩, ?_⟩
    simp only [Value.size, Value.sizes, hfullSize, hhashSize]
    unfold maximumDecodedValues
    omega
  refine ⟨_, hcod.encode_eq, fun read => ?_⟩
  have hread := decode_eq_ok_iff.mpr ⟨hcod, rfl⟩
  have hvalid : validateOptionalHostValueAgainst (.binary host.bytes) host.bytes = .ok () := by
    simp [validateOptionalHostValueAgainst, validateHostValueAgainst, hhead, hlen]
  rw [decodeHistoricalRootsArgument, mapError_eq_ok.mpr hread, ok_bind]
  simp only
  rw [hvalid, ok_bind, bind_eq_ok]
  constructor
  · rintro ⟨full, hfullRead, hnext⟩
    obtain ⟨hashes, hhashRead, hpair⟩ := bind_eq_ok.mp hnext
    obtain ⟨hfullLen, hfullEq⟩ := decodeEpochs_listValue.mp hfullRead
    obtain ⟨hhashLen, hhashEq⟩ := decodeEpochs_listValue.mp hhashRead
    rw [hfullEq, hhashEq] at hpair
    exact ⟨⟨hfullLen, hhashLen⟩, (Except.ok.inj hpair).symm⟩
  · rintro ⟨⟨hfullLen, hhashLen⟩, rfl⟩
    exact ⟨_, decodeEpochs_listValue.mpr ⟨hfullLen, rfl⟩,
      bind_of_ok (decodeEpochs_listValue.mpr ⟨hhashLen, rfl⟩) rfl⟩

/-- The server takes the request of a client at epoch `pinned` exactly when the skip pointers
    between the two epochs name at most 64 epochs besides the pin. -/
theorem historicalRequest_accepted_iff (host : EntityId) (hhost : host.entityType = entityHost)
    (pinned latest : UInt64) (hpinned : 1 ≤ pinned) (hlt : pinned < latest)
    (hmax : latest < 65536) :
    ∃ history argument, merkleHistoryRequirements latest pinned = .ok history ∧
      historicalRootsArgument host history.fullRoots history.hashes = .ok argument ∧
      (decodeHistoricalRootsArgument argument host.bytes = .ok (history.fullRoots, history.hashes) ↔
        historyHashCount latest.toNat pinned.toNat ≤ 64) := by
  obtain ⟨rest, hpath⟩ := exists_skipPath (UInt64.le_iff_toNat_le.mp hpinned)
    (UInt64.lt_iff_toNat_lt.mp hlt)
  have hmax : latest.toNat < 65536 := UInt64.lt_iff_toNat_lt.mp hmax
  have hle := hpath.length_hashEpochs_le
  have hfull := hpath.length_le_hashEpochs
  have hcount := hpath.length_hashEpochs
  obtain ⟨argument, hargument, hread⟩ := decodeHistoricalRootsArgument_iff hhost
    (show rest.length ≤ 65535 by omega)
    (show (SkipPath.hashEpochs latest pinned rest).length ≤ 65535 by omega)
  refine ⟨_, argument, hpath.requirements_eq, hargument, ?_⟩
  rw [hread]
  constructor
  · rintro ⟨⟨-, hlen⟩, -⟩
    omega
  · intro hlen
    exact ⟨⟨by omega, by omega⟩, rfl⟩

/-- A HostID. -/
def sampleHost : EntityId := ⟨entityHost :: List.replicate 32 0, by decide⟩

/-- A client at epoch 3 that asks for epoch 100. -/
theorem historicalRequest_accepted_hundred :
    ∃ history argument, merkleHistoryRequirements 100 3 = .ok history ∧
      historicalRootsArgument sampleHost history.fullRoots history.hashes = .ok argument ∧
      decodeHistoricalRootsArgument argument sampleHost.bytes =
        .ok (history.fullRoots, history.hashes) := by
  obtain ⟨history, argument, hrequest, hargument, haccepted⟩ :=
    historicalRequest_accepted_iff sampleHost rfl 3 100 (by decide) (by decide) (by decide)
  exact ⟨history, argument, hrequest, hargument, haccepted.mpr (by decide +kernel)⟩

/-- From epoch 1 to epoch 479 there are 65 hashes, and the server refuses them. -/
theorem historicalRequest_refused :
    ∃ history argument, merkleHistoryRequirements 479 1 = .ok history ∧
      historicalRootsArgument sampleHost history.fullRoots history.hashes = .ok argument ∧
      decodeHistoricalRootsArgument argument sampleHost.bytes =
        .error (.badArguments "too many historical root epochs") := by
  have hrun : (match merkleHistoryRequirements 479 1 with
      | .ok history =>
        match historicalRootsArgument sampleHost history.fullRoots history.hashes with
        | .ok argument => decide (decodeHistoricalRootsArgument argument sampleHost.bytes =
            .error (.badArguments "too many historical root epochs"))
        | .error _ => false
      | .error _ => false) = true := by decide +kernel
  split at hrun
  · rename_i history hrequest
    split at hrun
    · rename_i argument hargument
      exact ⟨history, argument, hrequest, hargument, of_decide_eq_true hrun⟩
    · cases hrun
  · cases hrun

end Foks.Server
