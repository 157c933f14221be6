import MatchRust.Lib.Runs
import MatchRust.Udp.Session

/-!
# Client, server and the network between them

The network may lose, repeat and reorder datagrams.  So the world remembers every
datagram that was ever sent, and any of them may be delivered at any time, any number
of times or never.  A datagram of the server is kept together with the session as it
was when the datagram was built.

The world also keeps what happened so far: the payloads the client sent, the payloads
the server registered as reports, and the events of both sides.  The sessions do not
see any of this.

`GenuineTo` and the other conditions on actions say which runs a result is about.  The
results themselves are in the next two modules, one for each direction.
-/

namespace MatchUdpOrder

/-- Two sessions, the datagrams in the network, and what happened so far. -/
structure World where
  client : ClientSession
  server : ServerSession
  /-- Every datagram of the client. -/
  toServer : List (List UInt8)
  /-- Every datagram of the server, with the session that built it. -/
  toClient : List (ServerSession × List UInt8)
  /-- The payloads of the orders, in the order they were sent. -/
  orders : List Payload
  /-- The payloads of the reports, in the order they were registered. -/
  reports : List Payload
  serverEvents : List ServerEvent
  clientEvents : List ClientEvent

/-- The calls of the two sessions. -/
inductive Action where
  | sendOrder (payload : Payload) (now : Nat)
  | retransmitDue (timeout now : Nat)
  | nakRequest (start count : Nat)
  | sendHello (clientId lastReportSeq : Nat)
  | ackAndReport (clientSeq : Nat) (payload : Payload)
  | rejectOrder (clientSeq : Nat)
  /-- A datagram reaches the server. -/
  | serverReceives (dg : List UInt8)
  /-- A datagram reaches the client. -/
  | clientReceives (dg : List UInt8)

namespace World

/-- The world before the first call. -/
def init (storeCap : Nat) : World where
  client := ClientSession.new
  server := ServerSession.new storeCap
  toServer := []
  toClient := []
  orders := []
  reports := []
  serverEvents := []
  clientEvents := []

/-- Take an action. -/
def act (w : World) : Action → World
  | .sendOrder payload now =>
      let r := w.client.sendOrder payload now
      { w with client := r.2, toServer := w.toServer ++ [r.1], orders := w.orders ++ [payload] }
  | .retransmitDue timeout now =>
      let r := w.client.retransmitDue timeout now
      { w with client := r.2, toServer := w.toServer ++ r.1 }
  | .nakRequest start count =>
      { w with toServer := w.toServer ++ [w.client.nakRequest start count] }
  | .sendHello clientId lastReportSeq =>
      { w with toServer := w.toServer ++ [w.client.sendHello clientId lastReportSeq] }
  | .ackAndReport clientSeq payload =>
      let r := w.server.ackAndReport clientSeq payload
      { w with
        server := r.2
        toClient := w.toClient ++ r.1.map (fun dg => (w.server, dg))
        reports := w.reports ++ [payload] }
  | .rejectOrder clientSeq =>
      { w with
        toClient := w.toClient ++ (w.server.rejectOrder clientSeq).map (fun dg => (w.server, dg)) }
  | .serverReceives dg =>
      let r := w.server.onDatagram dg
      { w with
        server := r.2.2
        toClient := w.toClient ++ r.2.1.map (fun dg => (w.server, dg))
        serverEvents := w.serverEvents ++ r.1 }
  | .clientReceives dg =>
      let r := w.client.onDatagram dg
      { w with
        client := r.2.2
        toServer := w.toServer ++ r.2.1
        clientEvents := w.clientEvents ++ r.1 }

end World

end MatchUdpOrder
