import WebSocket.Bytes
import WebSocket.Callbacks
import WebSocket.CloseCode
import WebSocket.Config
import WebSocket.Config.Field
import WebSocket.Config.Text
import WebSocket.Control
import WebSocket.Endpoint.Event
import WebSocket.Endpoint.Moves
import WebSocket.Endpoint.Reader
import WebSocket.Endpoint.Schedule
import WebSocket.Endpoint.State
import WebSocket.Endpoint.Submission
import WebSocket.Endpoint.Work
import WebSocket.Endpoint.Writer
import WebSocket.Error
import WebSocket.Exchange
import WebSocket.Fault
import WebSocket.Frame
import WebSocket.Header
import WebSocket.Header.Progress
import WebSocket.Json.Numeral
import WebSocket.Json.Skip
import WebSocket.Json.Token
import WebSocket.Masking
import WebSocket.Message
import WebSocket.Message.Tracker
import WebSocket.Opcode
import WebSocket.Proofs.Answered
import WebSocket.Proofs.Arrival
import WebSocket.Proofs.Bookkeeping
import WebSocket.Proofs.Clearing
import WebSocket.Proofs.CloseReply
import WebSocket.Proofs.Completions
import WebSocket.Proofs.Control
import WebSocket.Proofs.Control.ClosePayload
import WebSocket.Proofs.Deadline
import WebSocket.Proofs.Delivery.Course
import WebSocket.Proofs.Delivery.Intake
import WebSocket.Proofs.Delivery.Linked
import WebSocket.Proofs.Delivery.Marks
import WebSocket.Proofs.Delivery.Messages
import WebSocket.Proofs.Delivery.Parts
import WebSocket.Proofs.Delivery.Positions
import WebSocket.Proofs.Delivery.Reading
import WebSocket.Proofs.Delivery.Rows
import WebSocket.Proofs.Delivery.Said
import WebSocket.Proofs.Delivery.Submitted
import WebSocket.Proofs.Delivery.TextCheck
import WebSocket.Proofs.Delivery.Truncation
import WebSocket.Proofs.Dialogue
import WebSocket.Proofs.Endpoint.Calls
import WebSocket.Proofs.Endpoint.Driven
import WebSocket.Proofs.Endpoint.Flow
import WebSocket.Proofs.Endpoint.Jobs
import WebSocket.Proofs.Endpoint.Outgoing
import WebSocket.Proofs.Endpoint.Prompt
import WebSocket.Proofs.Endpoint.Queue
import WebSocket.Proofs.Endpoint.Run
import WebSocket.Proofs.Endpoint.Sound
import WebSocket.Proofs.Endpoint.Steps
import WebSocket.Proofs.Endpoint.Timer
import WebSocket.Proofs.Endpoint.Turn
import WebSocket.Proofs.Frame
import WebSocket.Proofs.Frame.Sequence
import WebSocket.Proofs.Handshake
import WebSocket.Proofs.Header.Codec
import WebSocket.Proofs.Header.Progress
import WebSocket.Proofs.Header.Refinement
import WebSocket.Proofs.Header.Shortest
import WebSocket.Proofs.Holders
import WebSocket.Proofs.Legible
import WebSocket.Proofs.Listening
import WebSocket.Proofs.Masking
import WebSocket.Proofs.Masking.Placement
import WebSocket.Proofs.Message.Grammar
import WebSocket.Proofs.Occupancy
import WebSocket.Proofs.Piecewise
import WebSocket.Proofs.Pongs
import WebSocket.Proofs.Refusal
import WebSocket.Proofs.Rejection
import WebSocket.Proofs.Reports
import WebSocket.Proofs.Source
import WebSocket.Proofs.Source.Exact
import WebSocket.Proofs.Teardown
import WebSocket.Proofs.Transport.Gather
import WebSocket.Proofs.Utf8
import WebSocket.Proofs.Utf8.Pieces
import WebSocket.Proofs.Utf8.Prefixes
import WebSocket.Proofs.Wire
import WebSocket.Role
import WebSocket.Slots
import WebSocket.Slots.Guard
import WebSocket.Source
import WebSocket.Source.Layer
import WebSocket.Transport
import WebSocket.Transport.Gather
import WebSocket.Utf8
import WebSocket.Utf8.Buffered
import WebSocket.Utf8.Validator
