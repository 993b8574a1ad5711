import MediaRelay.Catalog.Ranking
import MediaRelay.Proofs.Stream.Progress
import MediaRelay.Schedule.Script
import MediaRelay.Session.Play
import MediaRelay.Stream.Audience
import MediaRelay.Proofs.Stream.Sharing
import MediaRelay.Proofs.Stream.Fidelity
import MediaRelay.Proofs.Relay.Joining
import MediaRelay.Proofs.Catalog.Matches
import MediaRelay.Proofs.Catalog.SharedKeys
import MediaRelay.Proofs.Stream.Gathering
import MediaRelay.Proofs.Stream.AnyOrder
import MediaRelay.Proofs.Relay.Moves
import MediaRelay.Proofs.Relay.Whole
import MediaRelay.Proofs.Relay.Draining
import MediaRelay.Proofs.Relay.Announcements
import MediaRelay.Proofs.Relay.Counts
import MediaRelay.Proofs.Relay.Offers
import MediaRelay.Proofs.Relay.Rivals
import MediaRelay.Proofs.Stream.Reads
import MediaRelay.Proofs.Stream.JoinWindow
import MediaRelay.Proofs.Stream.Accounting
import MediaRelay.Proofs.Stream.Endings
import MediaRelay.Proofs.Schedule.Thread
import MediaRelay.Proofs.Schedule.Order
import MediaRelay.Proofs.Schedule.Execution
import MediaRelay.Proofs.Schedule.Answers
import MediaRelay.Proofs.Relay.Rounds
import MediaRelay.Proofs.Relay.Cancelling
import MediaRelay.Proofs.Relay.Releases
import MediaRelay.Proofs.Relay.Retention
import MediaRelay.Proofs.Session.Streams
import MediaRelay.Proofs.Relay.Attaching
import MediaRelay.Proofs.Relay.Returns
import MediaRelay.Proofs.Catalog.Lookup
import MediaRelay.Proofs.Protocol.Identities
import MediaRelay.Proofs.Catalog.CloserSizes
import MediaRelay.Proofs.Schedule.Barrier
import MediaRelay.Proofs.Service.EventedText
