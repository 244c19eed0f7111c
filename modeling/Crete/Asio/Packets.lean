/-
  File:      Crete/Asio/Packets.lean
  Subject:   Packets on a connection (lib/include/crete/asio/common.h, lib/asio/server/server.cpp,
             lib/asio/client/client_pimpl.cpp).

  A packet is a header of 16 bytes and a payload; the header says how long the payload is, in a
  field of 32 bits. `Server` and `ClientImpl` write and read packets by the same code, so that one
  definition stands for both. What is written arrives in order.

  A payload of 2^32 bytes or more is sent whole, after a header that gives its length modulo 2^32;
  only then does the sender notice and throw.

  * **`writePacket_eq`**, **`reads_read`** -- what is on the wire for one packet, and what is read.
  * **`roundTrips_iff`** -- the other end reads the same packets exactly if every payload is shorter
    than 2^32 bytes; `image_cut` is a longer one.
  * **`receiveObjects_sent`** -- objects sent one after another arrive as they were, unless another
    type is expected.
-/
import Crete.Lib.Emit
import Crete.Lib.Parse

namespace Crete.Asio

open Crete.Lib List
open Crete.Lib.Emit (require forEach)

/-! ## 1. Headers -/

/-- `struct PacketInfo`. -/
structure PacketInfo where
  id : UInt64
  size : UInt32
  type : UInt32
  deriving DecidableEq, Repr

/-- What the functions throw. -/
inductive Error where
  | sendIncomplete
  | endOfFile
  | typeMismatch
  | archive
  deriving DecidableEq, Repr

/-- The bytes of a header in memory. -/
def PacketInfo.bytes (i : PacketInfo) : Bytes :=
  leBytes 8 i.id.toNat ++ leBytes 4 i.size.toNat ++ leBytes 4 i.type.toNat

/-- The header that some bytes in memory are. -/
def PacketInfo.ofBytes (bs : Bytes) : PacketInfo where
  id := UInt64.ofNat (ofLeBytes (bs.take 8))
  size := UInt32.ofNat (ofLeBytes ((bs.drop 8).take 4))
  type := UInt32.ofNat (ofLeBytes ((bs.drop 12).take 4))

@[simp] theorem PacketInfo.length_bytes (i : PacketInfo) : i.bytes.length = 16 := by
  simp [PacketInfo.bytes]

/-- **A header is read back from its bytes.** -/
theorem PacketInfo.ofBytes_bytes (i : PacketInfo) : ofBytes i.bytes = i := by
  have hid : i.bytes.take 8 = leBytes 8 i.id.toNat := by
    rw [PacketInfo.bytes, append_assoc, take_left' (leBytes_length 8 _)]
  have hrest : i.bytes.drop 8 = leBytes 4 i.size.toNat ++ leBytes 4 i.type.toNat := by
    rw [PacketInfo.bytes, append_assoc, drop_left' (leBytes_length 8 _)]
  have hsize : (i.bytes.drop 8).take 4 = leBytes 4 i.size.toNat := by
    rw [hrest, take_left' (leBytes_length 4 _)]
  have htype : (i.bytes.drop 12).take 4 = leBytes 4 i.type.toNat := by
    rw [show 12 = 8 + 4 from rfl, ← drop_drop, hrest, drop_left' (leBytes_length 4 _),
      take_of_length_le (Nat.le_of_eq (leBytes_length 4 _))]
  rw [PacketInfo.ofBytes, hid, hsize, htype, ofLeBytes_leBytes_of_lt i.id.toNat_lt,
    ofLeBytes_leBytes_of_lt i.size.toNat_lt, ofLeBytes_leBytes_of_lt i.type.toNat_lt,
    UInt64.ofNat_toNat, UInt32.ofNat_toNat, UInt32.ofNat_toNat]

/-! ## 2. Writing -/

/-- `boost::asio::write`: all bytes are sent, and counted. -/
def send (bs : Bytes) : Emit UInt8 Error Nat := ⟨bs, .ok bs.length⟩

/-- `write(pktinfo)`. -/
def writeInfo (i : PacketInfo) : Emit UInt8 Error Unit := do
  let nsent ← send i.bytes
  require (nsent = 16) .sendIncomplete

/-- `write(sbuf, pktinfo)`. -/
def writePacket (sbuf : Bytes) (i : PacketInfo) : Emit UInt8 Error Unit := do
  writeInfo i
  let nsent ← send sbuf
  require (nsent = i.size.toNat) .sendIncomplete

/-- `write(sbuf, id, type)`: the size is cut to its field. -/
def write (sbuf : Bytes) (id : UInt64) (type : UInt32) : Emit UInt8 Error Unit :=
  writePacket sbuf ⟨id, UInt32.ofNat sbuf.length, type⟩

variable {T : Type}

/-- `write_serialized_binary`; `save` is `boost::archive::binary_oarchive`. -/
def writeSerializedBinary (save : T → Bytes) (i : PacketInfo) (t : T) :
    Emit UInt8 Error Unit :=
  let sbuf := save t
  writePacket sbuf { i with size := UInt32.ofNat sbuf.length }

/-- A binary archive of a type: what every archive starts with (signature and version), and how
    objects are put behind it. -/
structure Archive (T : Type) where
  preamble : Bytes
  put : T → Bytes
  get : Bytes → Option T

/-- `binary_oarchive`. -/
def Archive.save (a : Archive T) (t : T) : Bytes := a.preamble ++ a.put t

/-- `binary_iarchive`: throws if the signature or the version is another one. -/
def Archive.load (a : Archive T) (bs : Bytes) : Option T :=
  if a.preamble <+: bs then a.get (bs.drop a.preamble.length) else none

theorem Archive.load_save (a : Archive T) {t : T} (h : a.get (a.put t) = some t) :
    a.load (a.save t) = some t := by
  rw [load, save, if_pos (prefix_append _ _), drop_left, h]

/-- Vectors of bytes: the length and the bytes. -/
def byteVector : Archive Bytes where
  preamble := leBytes 8 22 ++ bytesOf "serialization::archive" ++ [17, 0]
  put bs := leBytes 8 bs.length ++ bs
  get bs := if ofLeBytes (bs.take 8) ≤ (bs.drop 8).length then
      some ((bs.drop 8).take (ofLeBytes (bs.take 8)))
    else none

/-! ## 3. Reading -/

/-- `read()`. -/
def readInfo : Parser Error PacketInfo := do
  let bs ← readN 16 .endOfFile
  return .ofBytes bs

/-- `read(sbuf)`: the header, and the payload that is then in `sbuf`. -/
def read : Parser Error (PacketInfo × Bytes) := do
  let i ← readInfo
  let sbuf ← readN i.size.toNat .endOfFile
  return (i, sbuf)

/-- `read_serialized_binary`; `load` is `boost::archive::binary_iarchive`. -/
def readSerializedBinary (load : Bytes → Option T) (pkType : UInt32) : Parser Error T := do
  let r ← read
  demand (r.1.type = pkType) .typeMismatch
  match load r.2 with
  | some t => return t
  | none => fun _ => .error .archive

/-! ## 4. Packets one after another -/

/-- A packet as it is handed to one of the two functions that write one. -/
inductive Sent (T : Type) where
  | stream (sbuf : Bytes) (id : UInt64) (type : UInt32)
  | serialized (info : PacketInfo) (t : T)
  deriving DecidableEq, Repr

/-- What a packet is about: its id, its type and the bytes it carries. -/
structure Contents where
  id : UInt64
  type : UInt32
  payload : Bytes
  deriving DecidableEq, Repr

/-- What was handed over to be sent. -/
def Sent.contents (save : T → Bytes) : Sent T → Contents
  | .stream sbuf id type => ⟨id, type, sbuf⟩
  | .serialized info t => ⟨info.id, info.type, save t⟩

/-- What was read. -/
def contents (r : PacketInfo × Bytes) : Contents := ⟨r.1.id, r.1.type, r.2⟩

/-- The call that sends a packet. -/
def Sent.write (save : T → Bytes) : Sent T → Emit UInt8 Error Unit
  | .stream sbuf id type => Asio.write sbuf id type
  | .serialized info t => writeSerializedBinary save info t

/-- The packets of one end, in order; an exception ends it. -/
def writeAll (save : T → Bytes) (ws : List (Sent T)) : Emit UInt8 Error Unit :=
  forEach (fun _ w => w.write save) () ws

/-- The other end reads `n` packets. -/
def readAll : Nat → Parser Error (List (PacketInfo × Bytes))
  | 0 => pure []
  | n + 1 => do
      let r ← read
      let rs ← readAll n
      return r :: rs

/-- Objects sent one after another. -/
def sendObjects (save : T → Bytes) (ws : List (PacketInfo × T)) : Emit UInt8 Error Unit :=
  writeAll save (ws.map fun w => .serialized w.1 w.2)

/-- The other end reads objects in packets of these types. -/
def receiveObjects (load : Bytes → Option T) (types : List UInt32) : Parser Error (List T) :=
  types.mapM (readSerializedBinary load)

/-- **The other end reads what was sent.** -/
def RoundTrips (save : T → Bytes) (ws : List (Sent T)) : Prop :=
  ∃ rs, parseFile (readAll ws.length) (writeAll save ws).out = .ok rs ∧
    rs.map contents = ws.map (Sent.contents save)

/-! ## 5. One packet -/

/-- The header of a packet on the wire. -/
def Contents.info (c : Contents) : PacketInfo := ⟨c.id, UInt32.ofNat c.payload.length, c.type⟩

theorem Contents.info_size (c : Contents) : c.info.size.toNat = c.payload.length % 2 ^ 32 := rfl

/-- Both calls come down to the same one. -/
theorem Sent.write_eq (save : T → Bytes) (w : Sent T) :
    w.write save = writePacket (w.contents save).payload (w.contents save).info := by
  cases w <;> rfl

/-- All bytes are sent, and then counted. -/
theorem send_require (bs : Bytes) (n : Nat) :
    (send bs >>= fun nsent => require (nsent = n) Error.sendIncomplete) =
      ⟨bs, if bs.length = n then .ok () else .error .sendIncomplete⟩ := by
  rw [send, Emit.ok_bind, require]
  split
  · exact congrArg (Emit.mk · _) (append_nil bs)
  · exact congrArg (Emit.mk · _) (append_nil bs)

/-- **On the wire: the header and the whole payload.** The sender goes on if the size in the header
    is the length of the payload. -/
theorem writePacket_eq (sbuf : Bytes) (i : PacketInfo) : writePacket sbuf i = ⟨i.bytes ++ sbuf,
      if sbuf.length = i.size.toNat then .ok () else .error .sendIncomplete⟩ := by
  rw [writePacket, writeInfo, send_require, if_pos i.length_bytes, Emit.ok_bind, send_require]

theorem reads_readInfo (i : PacketInfo) : Reads readInfo i.bytes i := by
  have h := (reads_readN i.length_bytes Error.endOfFile).map PacketInfo.ofBytes
  rw [PacketInfo.ofBytes_bytes] at h
  exact h

/-- **What is read: as many bytes of the payload as the header says.** -/
theorem reads_read {i : PacketInfo} {sbuf : Bytes} (h : sbuf.length = i.size.toNat) :
    Reads read (i.bytes ++ sbuf) (i, sbuf) :=
  (reads_readInfo i).bind ((reads_readN h Error.endOfFile).map fun sbuf => (i, sbuf))

/-- The sender's next packet comes after this one, if the size fits. -/
theorem writeAll_cons (save : T → Bytes) (w : Sent T) (ws : List (Sent T)) :
    writeAll save (w :: ws) = ⟨(w.contents save).info.bytes ++ (w.contents save).payload ++
      (if (w.contents save).payload.length < 2 ^ 32 then (writeAll save ws).out else []),
      if (w.contents save).payload.length < 2 ^ 32 then (writeAll save ws).res
      else .error .sendIncomplete⟩ := by
  have hcons : writeAll save (w :: ws) = w.write save >>= fun _ => writeAll save ws := rfl
  rw [hcons, Sent.write_eq, writePacket_eq, Contents.info_size]
  split
  · rename_i hlen
    rw [Emit.ok_bind, if_pos (by omega), if_pos (by omega)]
  · rename_i hlen
    rw [Emit.error_bind, if_neg (by omega), if_neg (by omega), append_nil]

/-- Reading one packet more. -/
theorem parseFile_readAll_succ {n : Nat} {r : PacketInfo × Bytes} {xs ys : Bytes}
    (h : Reads read xs r) :
    parseFile (readAll (n + 1)) (xs ++ ys) = (parseFile (readAll n) ys).map (r :: ·) := by
  have hread : readAll (n + 1) (xs ++ ys) =
      (read (xs ++ ys) >>= fun p => readAll n p.2 >>= fun q => .ok (p.1 :: q.1, q.2)) := rfl
  rw [parseFile, parseFile, hread, h ys]
  show Except.map _ (readAll n ys >>= _) = _
  cases readAll n ys <;> rfl

/-! ## 6. The round trip -/

variable {save : T → Bytes}

theorem roundTrips_nil (save : T → Bytes) : RoundTrips save [] := ⟨[], rfl, rfl⟩

/-- A payload that fits: the packet is read, and the others follow. -/
theorem roundTrips_cons {w : Sent T} (ws : List (Sent T))
    (h : (w.contents save).payload.length < 2 ^ 32) :
    RoundTrips save (w :: ws) ↔ RoundTrips save ws := by
  have hsize : (w.contents save).payload.length = (w.contents save).info.size.toNat := by
    rw [Contents.info_size, Nat.mod_eq_of_lt h]
  rw [RoundTrips, RoundTrips, writeAll_cons, if_pos h, length_cons,
    parseFile_readAll_succ (reads_read hsize)]
  constructor
  · intro ⟨rs, hrs, heq⟩
    cases hp : parseFile (readAll ws.length) (writeAll save ws).out with
    | error e =>
      rw [hp] at hrs
      cases hrs
    | ok rs' =>
      rw [hp] at hrs
      cases hrs
      exact ⟨rs', rfl, (List.cons.inj heq).2⟩
  · intro ⟨rs, hrs, heq⟩
    refine ⟨_, by rw [hrs]; rfl, ?_⟩
    rw [map_cons, map_cons, heq]
    rfl

/-- **A payload that does not fit arrives cut.** -/
theorem not_roundTrips_cons {w : Sent T} (ws : List (Sent T))
    (h : ¬ (w.contents save).payload.length < 2 ^ 32) : ¬ RoundTrips save (w :: ws) := by
  intro ⟨rs, hrs, heq⟩
  let c := w.contents save
  -- the header promises as many bytes as are left after division by 2^32
  have hcut : (c.payload.take c.info.size.toNat).length = c.info.size.toNat := by
    have hle := Nat.mod_le c.payload.length (2 ^ 32)
    rw [length_take, Contents.info_size]
    omega
  have hout : (writeAll save (w :: ws)).out =
      c.info.bytes ++ c.payload.take c.info.size.toNat ++ c.payload.drop c.info.size.toNat := by
    rw [writeAll_cons, if_neg h, append_nil, append_assoc, take_append_drop]
  rw [hout, length_cons, parseFile_readAll_succ (reads_read hcut)] at hrs
  cases hp : parseFile (readAll ws.length) (c.payload.drop c.info.size.toNat) with
  | error e =>
    rw [hp] at hrs
    cases hrs
  | ok rs' =>
    rw [hp] at hrs
    cases hrs
    have hpay : c.payload.take c.info.size.toNat = c.payload :=
      congrArg Contents.payload (List.cons.inj heq).1
    rw [hpay, Contents.info_size] at hcut
    have hlt := Nat.mod_lt c.payload.length (Nat.two_pow_pos 32)
    exact h (show c.payload.length < 2 ^ 32 by omega)

/-- **The other end reads the same ids, types and payloads exactly if every payload is shorter than
    2^32 bytes.** -/
theorem roundTrips_iff (save : T → Bytes) (ws : List (Sent T)) :
    RoundTrips save ws ↔ ∀ w ∈ ws, (w.contents save).payload.length < 2 ^ 32 := by
  induction ws with
  | nil => exact ⟨fun _ => forall_mem_nil _, fun _ => roundTrips_nil save⟩
  | cons w ws ih =>
    rw [forall_mem_cons]
    by_cases h : (w.contents save).payload.length < 2 ^ 32
    · rw [roundTrips_cons ws h, ih]
      exact ⟨fun hws => ⟨h, hws⟩, fun hws => hws.2⟩
    · exact ⟨fun hr => absurd hr (not_roundTrips_cons ws h), fun hws => absurd hws.1 h⟩

/-- A stream of 4 GiB: the header says that the packet is empty. -/
theorem image_cut : ¬ RoundTrips byteVector.save [.stream (replicate (2 ^ 32) 0) 0 21] :=
  not_roundTrips_cons [] fun h => Nat.lt_irrefl (2 ^ 32) (by
    rwa [Sent.contents, length_replicate] at h)

/-! ## 7. Objects -/

/-- **An object's packet** is read as the object, unless another type is expected. -/
theorem readSerializedBinary_packet {load : Bytes → Option T} {t : T} (i : PacketInfo)
    (harch : load (save t) = some t) (h : (save t).length < 2 ^ 32) (type : UInt32) (rest : Bytes) :
    readSerializedBinary load type ((Contents.mk i.id i.type (save t)).info.bytes ++ save t ++
      rest) = if type = i.type then .ok (t, rest) else .error .typeMismatch := by
  have hsize : (save t).length = (Contents.mk i.id i.type (save t)).info.size.toNat :=
    (Nat.mod_eq_of_lt h).symm
  by_cases ht : type = i.type
  · have hload : Reads (readSerializedBinary load type)
        ((Contents.mk i.id i.type (save t)).info.bytes ++ save t ++ []) t := by
      refine (reads_read hsize).bind ?_
      refine Reads.demand ht.symm ?_
      rw [harch]
      exact reads_pure t
    rw [append_nil] at hload
    rw [if_pos ht]
    exact hload rest
  · show (read _ >>= _) = _
    rw [reads_read hsize rest, if_neg ht]
    show (demand _ _ _ >>= _) = _
    rw [demand, if_neg fun h => ht h.symm]
    rfl

/-- **Objects sent one after another arrive as they were, in order**, if the other end expects the
    types of their packets; if not, it throws. The archive reads back each object and puts it in
    less than 2^32 bytes. -/
theorem receiveObjects_sent (a : Archive T) (ws : List (PacketInfo × T))
    (harch : ∀ w ∈ ws, a.get (a.put w.2) = some w.2)
    (hfit : ∀ w ∈ ws, (a.save w.2).length < 2 ^ 32) (types : List UInt32)
    (hlen : types.length = ws.length) (rest : Bytes) :
    (sendObjects a.save ws).res = .ok () ∧
      receiveObjects a.load types ((sendObjects a.save ws).out ++ rest) =
        if types = ws.map (·.1.type) then .ok (ws.map (·.2), rest)
        else .error .typeMismatch := by
  induction ws generalizing types with
  | nil =>
    cases length_eq_zero_iff.1 hlen
    exact ⟨rfl, rfl⟩
  | cons w ws ih =>
    obtain ⟨type, types, rfl⟩ := exists_cons_of_length_eq_add_one hlen
    obtain ⟨hw, hws⟩ := forall_mem_cons.1 harch
    obtain ⟨hlt, hlts⟩ := forall_mem_cons.1 hfit
    obtain ⟨hres, hread⟩ := ih hws hlts types (Nat.succ.inj hlen)
    refine ⟨?_, ?_⟩
    · rw [sendObjects, map_cons, writeAll_cons]
      exact (if_pos hlt).trans hres
    · have hone := readSerializedBinary_packet w.1 (a.load_save hw) hlt type
        ((sendObjects a.save ws).out ++ rest)
      have hout : (sendObjects a.save (w :: ws)).out ++ rest =
          (Contents.mk w.1.id w.1.type (a.save w.2)).info.bytes ++ a.save w.2 ++
            ((sendObjects a.save ws).out ++ rest) := by
        rw [sendObjects, map_cons, writeAll_cons, ← append_assoc]
        exact congrArg (_ ++ · ++ rest) (if_pos hlt)
      rw [hout, receiveObjects, mapM_cons]
      show (readSerializedBinary a.load type _ >>= _) = _
      rw [hone, map_cons]
      by_cases ht : type = w.1.type
      · rw [if_pos ht]
        show (receiveObjects a.load types _ >>= _) = _
        rw [hread]
        by_cases hts : types = ws.map (·.1.type)
        · rw [if_pos hts, if_pos (congrArg₂ cons ht hts)]
          rfl
        · rw [if_neg hts, if_neg fun h => hts (cons.inj h).2]
          rfl
      · rw [if_neg ht, if_neg fun h => ht (cons.inj h).1]
        rfl

/-- Two vectors, and a byte that follows them. -/
theorem receiveObjects_sent_two :
    (sendObjects byteVector.save [(⟨0, 0, 21⟩, [1, 2]), (⟨1, 0, 22⟩, [3])]).res = .ok () ∧
      receiveObjects byteVector.load [21, 22]
        ((sendObjects byteVector.save [(⟨0, 0, 21⟩, [1, 2]), (⟨1, 0, 22⟩, [3])]).out ++ [9]) =
      .ok ([[1, 2], [3]], [9]) :=
  receiveObjects_sent byteVector [(⟨0, 0, 21⟩, [1, 2]), (⟨1, 0, 22⟩, [3])] (by decide) (by decide)
    [21, 22] rfl [9]

end Crete.Asio
