import Orbis.ByteCodec

/-!
# Levin frames over a stream of chunks

A message or a reply is a header of 33 bytes and a payload, written as one
piece. The reader asks its socket for the bytes of a header and then for those
of the payload, and the socket hands them out in chunks of its own choice.
Whatever the chunks are, the commands come out as they were sent.
-/

set_option autoImplicit false

namespace Orbis.LevinFrames

open ByteCodec

def levinSignature : UInt64 := 0x0101010101012101

def levinPacketRequest : UInt32 := 1

def levinPacketResponse : UInt32 := 2

@[irreducible]
def levinDefaultMaxPacketSize : ℕ := 100000000

def levinProtocolVer1 : UInt32 := 1

structure BucketHead where
  signature : UInt64
  cb : UInt64
  haveToReturnData : Bool
  command : UInt32
  returnCode : Int32
  flags : UInt32
  protocolVersion : UInt32
  deriving DecidableEq

structure Command where
  command : UInt32
  isNotify : Bool
  isResponse : Bool
  buf : Bytes
  deriving DecidableEq

inductive Packet where
  | message (command : UInt32) (out : Bytes) (needResponse : Bool)
  | reply (command : UInt32) (out : Bytes) (returnCode : Int32)
  deriving DecidableEq

def Packet.out : Packet → Bytes
  | .message _ out _ => out
  | .reply _ out _ => out

def writeHead (head : BucketHead) : Bytes :=
  writeWord 8 head.signature.toNat ++ (writeWord 8 head.cb.toNat ++
    ([if head.haveToReturnData then 1 else 0] ++ (writeWord 4 head.command.toNat ++
      (writeWord 4 head.returnCode.toUInt32.toNat ++ (writeWord 4 head.flags.toNat ++
        writeWord 4 head.protocolVersion.toNat)))))

def readHead : Reader BucketHead := do
  let signature ← readWord 8
  let cb ← readWord 8
  let haveToReturnData ← readByte
  let command ← readWord 4
  let returnCode ← readWord 4
  let flags ← readWord 4
  let protocolVersion ← readWord 4
  pure ⟨UInt64.ofNat signature,UInt64.ofNat cb,haveToReturnData != 0,UInt32.ofNat command,
    (UInt32.ofNat returnCode).toInt32,UInt32.ofNat flags,UInt32.ofNat protocolVersion⟩

def headSize : ℕ := 33

def headOf : Packet → BucketHead
  | .message command out needResponse => ⟨levinSignature,UInt64.ofNat out.length,needResponse,
      command,0,levinPacketRequest,levinProtocolVer1⟩
  | .reply command out returnCode => ⟨levinSignature,UInt64.ofNat out.length,false,command,
      returnCode,levinPacketResponse,levinProtocolVer1⟩

def send (packet : Packet) : Bytes := writeHead (headOf packet) ++ packet.out

def sendMessage (command : UInt32) (out : Bytes) (needResponse : Bool) : Bytes :=
  send (.message command out needResponse)

def sendReply (command : UInt32) (out : Bytes) (returnCode : Int32) : Bytes :=
  send (.reply command out returnCode)

abbrev Connection := List Bytes

def readStrict : ℕ → Connection → Option (Bytes × Connection)
  | 0, conn => some ([], conn)
  | _ + 1, [] => none
  | size + 1, chunk :: conn =>
    if chunk = [] then none
    else if chunk.length ≤ size + 1 then
      (readStrict (size + 1 - chunk.length) conn).map fun (bytes, conn) => (chunk ++ bytes, conn)
    else some (chunk.take (size + 1), chunk.drop (size + 1) :: conn)

inductive ReadResult where
  | read (cmd : Command) (conn : Connection)
  | closed
  | signatureMismatch
  | packetTooBig
  deriving DecidableEq

def toCommand (head : BucketHead) (buf : Bytes) : Command where
  command := head.command
  isNotify := !head.haveToReturnData
  isResponse := head.flags &&& levinPacketResponse = levinPacketResponse
  buf := buf

def readCommand (conn : Connection) : ReadResult :=
  match readStrict headSize conn with
  | none => .closed
  | some (bytes, conn) =>
    match readHead.run bytes with
    | none => .closed
    | some (head, _) =>
      if head.signature ≠ levinSignature then .signatureMismatch
      else if head.cb.toNat > levinDefaultMaxPacketSize then .packetTooBig
      else
        match readStrict head.cb.toNat conn with
        | none => .closed
        | some (buf, conn) => .read (toCommand head buf) conn

def readCommands : ℕ → Connection → Option (List Command × Connection)
  | 0, conn => some ([], conn)
  | count + 1, conn =>
    match readCommand conn with
    | .read cmd conn => (readCommands count conn).map fun (cmds, conn) => (cmd :: cmds, conn)
    | _ => none

def received : Packet → Command
  | .message command out needResponse => ⟨command,!needResponse,false,out⟩
  | .reply command out _ => ⟨command,true,true,out⟩

variable {size : ℕ} {conn : Connection} {rest : Bytes}

theorem readWord_bind {value : ℕ} (h : value < 256 ^ size) {γ : Type} (f : ℕ → Reader γ)
    (rest : Bytes) :
    (readWord size >>= f).run (writeWord size value ++ rest) = (f value).run rest := by
  rw [StateT.run_bind, (readWord_exact size _ _ _).mpr ⟨h,rfl⟩]
  rfl

theorem readHead_writeHead (head : BucketHead) :
    readHead.run (writeHead head) = some (head, []) := by
  have hf : ((if head.haveToReturnData then 1 else 0 : UInt8) != 0) = head.haveToReturnData := by
    cases head.haveToReturnData <;> rfl
  unfold readHead writeHead
  rw [readWord_bind head.signature.toNat_lt, readWord_bind head.cb.toNat_lt,
    readByte_exact.reads.bind, readWord_bind head.command.toNat_lt,
    readWord_bind head.returnCode.toUInt32.toNat_lt,
    readWord_bind head.flags.toNat_lt, ← List.append_nil (writeWord 4 head.protocolVersion.toNat),
    readWord_bind head.protocolVersion.toNat_lt]
  simp [hf]

theorem writeHead_length (head : BucketHead) : (writeHead head).length = headSize := by
  simp [writeHead, writeWord_length, headSize]

theorem readStrict_chunks (hco : ∀ chunk ∈ conn, chunk ≠ []) {bs : Bytes} (hsi : bs.length = size)
    (hs : conn.flatten = bs ++ rest) :
    ∃ conn', readStrict size conn = some (bs, conn') ∧ conn'.flatten = rest ∧
      ∀ chunk ∈ conn', chunk ≠ [] := by
  induction conn generalizing size bs with
  | nil =>
    obtain ⟨rfl,rfl⟩ := List.append_eq_nil_iff.mp hs.symm
    subst hsi
    exact ⟨[],rfl,rfl,hco⟩
  | cons chunk conn ih =>
    cases size with
    | zero =>
      rw [List.length_eq_zero_iff] at hsi
      subst hsi
      exact ⟨chunk :: conn,rfl,hs,hco⟩
    | succ size =>
      have hne := hco chunk List.mem_cons_self
      rw [List.flatten_cons] at hs
      have hck : chunk <+: bs ++ rest := hs ▸ List.prefix_append _ _
      rw [readStrict, if_neg hne]
      by_cases hwh : chunk.length ≤ size + 1
      · -- the chunk is a first part of the bytes
        obtain ⟨tail,rfl⟩ : chunk <+: bs :=
          List.prefix_of_prefix_length_le hck (List.prefix_append _ _) (by omega)
        rw [List.append_assoc, List.append_cancel_left_eq] at hs
        rw [List.length_append] at hsi
        obtain ⟨conn',hr,hre,hco'⟩ := ih (fun c hc => hco c (List.mem_cons_of_mem _ hc))
            (show tail.length = size + 1 - chunk.length by omega) hs
        exact ⟨conn',by rw [if_pos hwh, hr]; rfl,hre,hco'⟩
      · obtain ⟨tail,rfl⟩ : bs <+: chunk :=
          List.prefix_of_prefix_length_le (List.prefix_append _ _) hck (by omega)
        rw [List.append_assoc, List.append_cancel_left_eq] at hs
        rw [if_neg hwh, ← hsi, List.take_left, List.drop_left]
        refine ⟨tail :: conn,rfl,hs,?_⟩
        intro c hc
        rcases List.mem_cons.mp hc with rfl | hc
        · rintro rfl
          rw [List.append_nil] at hwh
          omega
        · exact hco c (List.mem_cons_of_mem _ hc)

theorem readCommand_sent {pk : Packet} (hout : pk.out.length ≤ levinDefaultMaxPacketSize)
    (hc : ∀ chunk ∈ conn, chunk ≠ []) (hs : conn.flatten = send pk ++ rest) :
    ∃ conn', readCommand conn = .read (received pk) conn' ∧ conn'.flatten = rest ∧
      ∀ chunk ∈ conn', chunk ≠ [] := by
  have hsig : (headOf pk).signature = levinSignature := by cases pk <;> rfl
  have hcb : (headOf pk).cb.toNat = pk.out.length := by
    have hlt : pk.out.length < 2 ^ 64 := by
      unfold levinDefaultMaxPacketSize at hout
      omega
    cases pk <;> exact UInt64.toNat_ofNat_of_lt' hlt
  have hco : toCommand (headOf pk) pk.out = received pk := by
    have hr : ¬ levinPacketRequest &&& levinPacketResponse = levinPacketResponse := by decide
    cases pk <;> simp [toCommand, headOf, received, Packet.out, hr]
  rw [send, List.append_assoc] at hs
  obtain ⟨_,hh,hstream₁,hconn₁⟩ := readStrict_chunks hc (writeHead_length (headOf pk)) hs
  obtain ⟨conn₂,hb,hstream₂,hconn₂⟩ := readStrict_chunks hconn₁ hcb.symm hstream₁
  refine ⟨conn₂,?_,hstream₂,hconn₂⟩
  simp only [readCommand, hh, readHead_writeHead, hsig, ne_eq, not_true_eq_false, if_false,
    hcb, if_neg (Nat.not_lt.mpr hout)]
  rw [← hcb, hb]
  exact congrArg (ReadResult.read · conn₂) hco

/-- Whatever was sent and however it is cut into chunks, as many calls of
`readCommand` as packets were sent return the commands in order, and the next
one finds the stream at its end. -/
theorem frames_received (packets : List Packet)
    (hout : ∀ packet ∈ packets, packet.out.length ≤ levinDefaultMaxPacketSize) {conn : Connection}
    (hconn : ∀ chunk ∈ conn, chunk ≠ []) (hstream : conn.flatten = packets.flatMap send) :
    ∃ conn', readCommands packets.length conn = some (packets.map received, conn') ∧
      readCommand conn' = .closed := by
  induction packets generalizing conn with
  | nil =>
    have hn : conn = [] := by
      cases conn with
      | nil => rfl
      | cons chunk _ =>
        exact absurd (List.append_eq_nil_iff.mp hstream).1 (hconn chunk List.mem_cons_self)
    exact ⟨[],by rw [hn]; rfl,rfl⟩
  | cons packet _ ih =>
    rw [List.flatMap_cons] at hstream
    obtain ⟨_,hr,hstream₁,hconn₁⟩ := readCommand_sent (hout packet List.mem_cons_self) hconn hstream
    obtain ⟨conn₂,hre,hend⟩ := ih (fun p hp => hout p (List.mem_cons_of_mem _ hp)) hconn₁ hstream₁
    refine ⟨conn₂,?_,hend⟩
    simp only [List.length_cons, readCommands, hr, hre]
    rfl

theorem frames_received_sample :
    ∃ conn', readCommands 2 ((sendMessage 7 [5] true ++ sendReply 7 [] 1).map fun b => [b]) =
      some ([⟨7,false,false,[5]⟩,⟨7,true,true,[]⟩], conn') ∧ readCommand conn' = .closed :=
  frames_received [.message 7 [5] true,.reply 7 [] 1]
    (by decide +kernel) (by decide +kernel) (by decide +kernel)

end Orbis.LevinFrames
