import PrivacyClaw.Lib.Search
import PrivacyClaw.Lib.Regex
import PrivacyClaw.Lib.Scan
import PrivacyClaw.Lib.Leftmost
import PrivacyClaw.Lib.Feed
import PrivacyClaw.Lib.Splice
import PrivacyClaw.Lib.Utf8
import PrivacyClaw.Lib.Writes
import PrivacyClaw.Lib.Machine
import PrivacyClaw.Lib.Locks
import PrivacyClaw.Lib.Pieces
import PrivacyClaw.Lib.Lens
import PrivacyClaw.Core.Text
import PrivacyClaw.Core.Vault
import PrivacyClaw.Core.Buffer
import PrivacyClaw.Core.Synth
import PrivacyClaw.Core.Json
import PrivacyClaw.Core.Sse
import PrivacyClaw.Core.Framing
import PrivacyClaw.Core.NetworkHelper
import PrivacyClaw.Core.Parser
import PrivacyClaw.Core.PiiSse
import PrivacyClaw.Core.U2c
import PrivacyClaw.Core.Inject
import PrivacyClaw.Core.C2u
import PrivacyClaw.Core.Transcript
import PrivacyClaw.Core.Pipeline
import PrivacyClaw.Core.Sidecar
import PrivacyClaw.Core.Registry
import PrivacyClaw.Core.Models
import PrivacyClaw.Core.Store
import PrivacyClaw.Core.Logging
import PrivacyClaw.Core.Calls
import PrivacyClaw.Core.Checked
import PrivacyClaw.Core.CheckedSynth
import PrivacyClaw.Core.CertGen
import PrivacyClaw.Theory.Incremental
import PrivacyClaw.Theory.Resync
import PrivacyClaw.Theory.Characters
import PrivacyClaw.Theory.CheckDigits
import PrivacyClaw.Theory.Trimming
import PrivacyClaw.Theory.Response
import PrivacyClaw.Theory.Exclusion
import PrivacyClaw.Theory.Hostile
import PrivacyClaw.Theory.HostsFile
import PrivacyClaw.Theory.Offsets
import PrivacyClaw.Theory.Replace
import PrivacyClaw.Theory.Agreement
import PrivacyClaw.Theory.Coverage
import PrivacyClaw.Theory.UrlSynthetics
import PrivacyClaw.Theory.VaultInvariant
import PrivacyClaw.Theory.Rows
import PrivacyClaw.Theory.OneToOne
import PrivacyClaw.Theory.Service
import PrivacyClaw.Theory.Stored
import PrivacyClaw.Theory.Persistence
import PrivacyClaw.Theory.Merge
import PrivacyClaw.Theory.TokenIds
import PrivacyClaw.Theory.RequestOps
import PrivacyClaw.Theory.Chaining
import PrivacyClaw.Theory.Detection
import PrivacyClaw.Theory.Disguise
import PrivacyClaw.Theory.Forms
import PrivacyClaw.Theory.Matches
import PrivacyClaw.Theory.Unlinkable
import PrivacyClaw.Theory.Echo
import PrivacyClaw.Theory.Display
import PrivacyClaw.Theory.Reload
import PrivacyClaw.Theory.Evictions
import PrivacyClaw.Theory.Markup
import PrivacyClaw.Theory.Cascade
import PrivacyClaw.Theory.Reread
import PrivacyClaw.Theory.HoldBack
import PrivacyClaw.Theory.BareStream
import PrivacyClaw.Theory.Transparency
import PrivacyClaw.Theory.KeepAlive
import PrivacyClaw.Theory.Requests
import PrivacyClaw.Theory.Passthrough
import PrivacyClaw.Theory.Bodies
import PrivacyClaw.Theory.Deltas
import PrivacyClaw.Theory.Delivery
import PrivacyClaw.Theory.Declared
import PrivacyClaw.Theory.Blocks
import PrivacyClaw.Theory.Transcripts
import PrivacyClaw.Theory.TokenStream
import PrivacyClaw.Theory.RoundTrip
import PrivacyClaw.Theory.Masking
import PrivacyClaw.Theory.Tracker
import PrivacyClaw.Theory.Downloads
import PrivacyClaw.Theory.SharedVaults
import PrivacyClaw.Theory.Certificates
import PrivacyClaw.Theory.PathCache
import PrivacyClaw.Theory.Filing
import PrivacyClaw.Theory.Markers
import PrivacyClaw.Theory.Rebuilt
import PrivacyClaw.Theory.Window
import PrivacyClaw.Theory.SidecarRanges
import PrivacyClaw.Theory.SpanMerge
import PrivacyClaw.Theory.DamagedTokens
import PrivacyClaw.Theory.Records
import PrivacyClaw.Theory.Kept
import PrivacyClaw.Theory.VaultSaves
import PrivacyClaw.Theory.Fingerprints
import PrivacyClaw.Theory.GeneratorPanics
import PrivacyClaw.Theory.PrintedNumbers
import PrivacyClaw.Theory.TypeKept
import PrivacyClaw.Theory.ClientHello
import PrivacyClaw.Theory.DnsAnswers
import PrivacyClaw.Theory.History
import PrivacyClaw.Theory.Draws
import PrivacyClaw.Theory.Events
import PrivacyClaw.Theory.ChunkedBodies
import PrivacyClaw.Theory.Envelope
import PrivacyClaw.Theory.Panics
import PrivacyClaw.Theory.PfConf
import PrivacyClaw.Theory.PrivilegedScript
import PrivacyClaw.Theory.TokenEncoding
import PrivacyClaw.Theory.TriggerSet
import PrivacyClaw.Theory.ConfigPatch
