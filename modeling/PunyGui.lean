import PunyGui.Janet
import PunyGui.Libc.Printf
import PunyGui.Json.Decode.String
import PunyGui.JsonText.Unique
import PunyGui.Json.Decode.Text
import PunyGui.Json.Decode.Grammar
import PunyGui.Json.Encode
import PunyGui.Json.Encode.String
import PunyGui.Json.Encode.Text
import PunyGui.Json.RoundTrip
import PunyGui.Json.Survival
import PunyGui.Json.Decode.Options
import PunyGui.Json.Decode.Visits
import PunyGui.Json.Decode.Bounds
import PunyGui.Json.Encode.Append
import PunyGui.Json.Encode.Validation
import PunyGui.Json.Format
import PunyGui.Iup.Callback
import PunyGui.Sqlite.Eval
import PunyGui.Sqlite.Script
import PunyGui.Sqlite.Account
import PunyGui.Sqlite.Bind
import PunyGui.Sqlite.Result
import PunyGui.Sqlite.Select
import PunyGui.Sqlite.Connection
import PunyGui.Circlet.Reply
import PunyGui.Circlet.Answer
import PunyGui.Circlet.Server
import PunyGui.Circlet.Router
import PunyGui.Circlet.Parse
import PunyGui.Circlet.Chunked
import PunyGui.Circlet.Receive
import PunyGui.Circlet.Endless
import PunyGui.Circlet.Pipeline
import PunyGui.Circlet.Request
import PunyGui.Circlet.Clients
import PunyGui.Circlet.Reassembly
import PunyGui.Circlet.Poll
import PunyGui.Circlet.Service
import PunyGui.Circlet.ReadBack
import PunyGui.Heap
import PunyGui.Circlet.Mbuf
import PunyGui.Line.Editor
import PunyGui.Line.Complete
import PunyGui.Line.Loop
import PunyGui.Line.State
import PunyGui.Smallest
import PunyGui.Zipper
import PunyGui.Screen
import PunyGui.Drafts
import PunyGui.Framing
import PunyGui.Http.Stream
import PunyGui.Line.Window
import PunyGui.Line.Text
import PunyGui.Line.Words
import PunyGui.Line.Echo
import PunyGui.Line.Command
import PunyGui.Line.Escape
import PunyGui.Line.History
import PunyGui.Line.Session
import PunyGui.Line.Operations
import PunyGui.Line.Invariant
import PunyGui.Line.Editing
import PunyGui.Line.Agreement
import PunyGui.Line.Matches
import PunyGui.Line.Completion
import PunyGui.Line.Submit
import PunyGui.Line.Navigation
import PunyGui.Line.Display
import PunyGui.Blocks
import PunyGui.Line.Memory
