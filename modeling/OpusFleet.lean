import OpusFleet.Library.Words
import OpusFleet.Library.Incremental
import OpusFleet.Library.Octets
import OpusFleet.Library.Ogg
import OpusFleet.Library.Runs
import OpusFleet.Library.Window
import OpusFleet.Library.Serial
import OpusFleet.Library.Shuffle
import OpusFleet.Library.Dict
import OpusFleet.Library.Batches
import OpusFleet.Library.Calendar
import OpusFleet.Library.Rfc8259
import OpusFleet.Library.Crc
import OpusFleet.Library.Groups
import OpusFleet.Library.Rounding
import OpusFleet.Python.Text
import OpusFleet.Python.Json
import OpusFleet.Python.Hex
import OpusFleet.Python.Dumps
import OpusFleet.Python.Floats
import OpusFleet.Python.Doubles
import OpusFleet.Python.Numerals
import OpusFleet.Python.Strings
import OpusFleet.Python.Loads
import OpusFleet.Server.Protocol
import OpusFleet.Server.Framing
import OpusFleet.Server.Auth
import OpusFleet.Server.Ingest
import OpusFleet.Server.Handshake
import OpusFleet.Server.Messages
import OpusFleet.Server.Registry
import OpusFleet.Sim.Device
import OpusFleet.Server.Dispatch
import OpusFleet.Server.Speech
import OpusFleet.Server.Sessions
import OpusFleet.Server.Rollout
import OpusFleet.Server.Provisioning
import OpusFleet.Server.KeyFiles
import OpusFleet.Server.Connections
import OpusFleet.Server.Limiter
import OpusFleet.Server.Slots
import OpusFleet.Server.Attribution
import OpusFleet.Server.Api
import OpusFleet.Server.Telemetry
import OpusFleet.Server.Presence
import OpusFleet.Server.Calls
import OpusFleet.Server.Wire
import OpusFleet.Server.Isolation
import OpusFleet.Server.Bracketing
import OpusFleet.Server.Hellos
import OpusFleet.Server.Locality
import OpusFleet.Server.Sink
import OpusFleet.Server.Baseline
import OpusFleet.Sim.Losses
import OpusFleet.Sim.Counts
import OpusFleet.Sim.Answers
import OpusFleet.Server.Refusals
import OpusFleet.Server.OggOpus
import OpusFleet.Server.Muxing
import OpusFleet.Server.Checksum
import OpusFleet.Server.Streams
import OpusFleet.Server.Storage
import OpusFleet.Server.Listings
import OpusFleet.Server.Recency
import OpusFleet.Server.Segmenter
import OpusFleet.Server.Rotation
import OpusFleet.Server.Conservation
import OpusFleet.Server.Quiet
import OpusFleet.Server.Endurance
import OpusFleet.Server.Broker
import OpusFleet.Server.Recordings
import OpusFleet.Sim.Recorded
import OpusFleet.Server.Live
import OpusFleet.Server.Listening
import OpusFleet.Server.Leaks
import OpusFleet.Server.Uploads
import OpusFleet.Server.Outages
import OpusFleet.Server.Labels
import OpusFleet.Server.Confluence
import OpusFleet.Server.LastSeen
import OpusFleet.Server.Denials
import OpusFleet.Server.Levels
import OpusFleet.Server.Metering
import OpusFleet.Server.Accounts
import OpusFleet.Server.Vouched
import OpusFleet.Server.Browsing
import OpusFleet.Server.Playback
import OpusFleet.Sim.Reconnects
import OpusFleet.Server.Receiving
import OpusFleet.Sim.Overlaps
