import Nica.Hls.Equiv.Packing
import Nica.Hls.Udp

/-!
# The two constructions of a reply

`packet_metadata::reply` swaps the addresses of a packet; `header_parser::reply` means to do the same in its header.
The Ethernet destination is copied to itself there, so the two agree, and the second is an involution, only where the
two Ethernet addresses are the same (`repliesAgree_iff`).

`header_buffer` carries the header as 336 bits, and `splitUdpHdrStream` reads the metadata from them.
-/

namespace Nica.Hls

/-! ### The metadata of a header -/

/-- The addresses that `split_udp_hdr_stream` reads from a header. -/
def HeaderParser.packetMetadata (h : HeaderParser) : PacketMetadata where
  ethDst := h.eth.dest
  ethSrc := h.eth.source
  ipDst := h.ip.daddr
  ipSrc := h.ip.saddr
  udpDst := h.udp.dest
  udpSrc := h.udp.source

theorem getPacketMetadata_headerMetadata (buf : HeaderBuffer) (r : FlowTableResult) :
    getPacketMetadata (Udp.headerMetadata buf r) = buf.parse.packetMetadata := rfl

/-- A header with its six addresses replaced. -/
def HeaderParser.withAddresses (h : HeaderParser) (p : PacketMetadata) : HeaderParser where
  eth := { h.eth with dest := p.ethDst, source := p.ethSrc }
  ip := { h.ip with daddr := p.ipDst, saddr := p.ipSrc }
  udp := { h.udp with dest := p.udpDst, source := p.udpSrc }

theorem packetMetadata_withAddresses (h : HeaderParser) (p : PacketMetadata) :
    (h.withAddresses p).packetMetadata = p := rfl

/-- A reply to a reply goes back to where the packet went. -/
theorem PacketMetadata.reply_reply (p : PacketMetadata) : p.reply.reply = p := rfl

/-! ### The reply of a header -/

/-- What `header_parser::reply` does to the addresses: all are swapped but for the Ethernet source, which goes
nowhere. -/
theorem HeaderParser.reply_eq (h : HeaderParser) :
    h.reply = h.withAddresses { h.packetMetadata.reply with ethDst := h.eth.dest } := rfl

/-- The reply to the header in a buffer. -/
def HeaderBuffer.reply (buf : HeaderBuffer) : HeaderBuffer := { buf with hdr := buf.parse.reply.toBits }

theorem HeaderBuffer.parse_reply (buf : HeaderBuffer) : buf.reply.parse = buf.parse.reply :=
  HeaderParser.ofBits_toBits _

/-- The reply of a header and the reply of the metadata extracted from it agree, both are involutions, and a reply
has the fields of its header apart from the addresses. -/
structure RepliesAgree (buf : HeaderBuffer) (r : FlowTableResult) : Prop where
  extract : getPacketMetadata (Udp.headerMetadata buf.reply r) = (getPacketMetadata (Udp.headerMetadata buf r)).reply
  header_reply_reply : buf.parse.reply.reply = buf.parse
  metadata_reply_reply :
    (getPacketMetadata (Udp.headerMetadata buf r)).reply.reply = getPacketMetadata (Udp.headerMetadata buf r)
  others : ∃ p, buf.parse.reply = buf.parse.withAddresses p

/-- The two constructions agree on a header exactly when its Ethernet addresses are the same. -/
theorem repliesAgree_iff (buf : HeaderBuffer) (r : FlowTableResult) :
    RepliesAgree buf r ↔ buf.parse.eth.dest = buf.parse.eth.source := by
  constructor
  · intro h
    have he := h.extract
    rw [getPacketMetadata_headerMetadata, getPacketMetadata_headerMetadata, HeaderBuffer.parse_reply] at he
    exact congrArg PacketMetadata.ethDst he
  · intro heq
    have hreply : buf.parse.reply = buf.parse.withAddresses buf.parse.packetMetadata.reply := by
      rw [HeaderParser.reply_eq, heq]
      rfl
    refine ⟨?_, ?_, PacketMetadata.reply_reply _, _, hreply⟩
    · rw [getPacketMetadata_headerMetadata, getPacketMetadata_headerMetadata, HeaderBuffer.parse_reply, hreply,
        packetMetadata_withAddresses]
    · have hback : { buf.parse.packetMetadata with ethDst := buf.parse.eth.source } = buf.parse.packetMetadata :=
        congrArg (fun a => { buf.parse.packetMetadata with ethDst := a }) heq.symm
      calc buf.parse.reply.reply
          = (buf.parse.withAddresses buf.parse.packetMetadata.reply).reply := by rw [hreply]
        _ = buf.parse.withAddresses { buf.parse.packetMetadata with ethDst := buf.parse.eth.source } := rfl
        _ = buf.parse.withAddresses buf.parse.packetMetadata := by rw [hback]
        _ = buf.parse := rfl

/-- A header whose Ethernet addresses are 1 and 2, and a result for it. -/
def twoAddresses : HeaderBuffer :=
  ⟨HeaderParser.toBits ⟨⟨1, 2, ethPIp⟩, ⟨4, 5, 0, 28, 0, 0, 64, ipprotoUdp, 0, 3, 4⟩, ⟨5, 6, 8, 0⟩⟩, 0, 0, false⟩

theorem not_repliesAgree_twoAddresses : ¬RepliesAgree twoAddresses ⟨⟨.passthrough, 0, 0⟩, 0⟩ := by
  intro h
  have he := congrArg PacketMetadata.ethDst h.extract
  revert he
  decide

end Nica.Hls
