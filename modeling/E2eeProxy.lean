import E2eeProxy.SseAuthenticity
import E2eeProxy.SseFailures
import E2eeProxy.SseTermination
import E2eeProxy.SseReplay
import E2eeProxy.ClaudeBlocks
import E2eeProxy.ClaudeAgreement
import E2eeProxy.ClaudeLossless
import E2eeProxy.ClaudeStopReason
import E2eeProxy.ClaudeConversation
import E2eeProxy.ResponsesSnapshot
import E2eeProxy.ResponsesCalls
import E2eeProxy.LegalAnswers
import E2eeProxy.ErrorReports
import E2eeProxy.Blob
import E2eeProxy.Binding
import E2eeProxy.Capacity
import E2eeProxy.Failover
import E2eeProxy.ConfidentialRuns
import E2eeProxy.NonceKeys
import E2eeProxy.Lib.Rounding
import E2eeProxy.Lua.Json
import E2eeProxy.Lua.JsonText
import E2eeProxy.Lua.Cjson
import E2eeProxy.SealedPayload
import E2eeProxy.Lua.JsonPatch
import E2eeProxy.ClaudeToolInput
import E2eeProxy.Lib.Rotation
import E2eeProxy.SelectorRing
import E2eeProxy.RingInvariant
import E2eeProxy.RoundRobin
import E2eeProxy.AgentMode
import E2eeProxy.ResponsesInput
import E2eeProxy.ResponsesOrder
import E2eeProxy.ResponsesKept
import E2eeProxy.FindQuotes
import E2eeProxy.Fallback
import E2eeProxy.GzipFile
import E2eeProxy.Lua.Pattern
import E2eeProxy.Lib.Memory
import E2eeProxy.Cors
import E2eeProxy.Allowlist
import E2eeProxy.Metrics
import E2eeProxy.Lib.Account
import E2eeProxy.InstanceStats
import E2eeProxy.FailureCounts
import E2eeProxy.Random
import E2eeProxy.Aead
import E2eeProxy.OneShot
import E2eeProxy.NativeAead
import E2eeProxy.MetricSeries
import E2eeProxy.Mlkem.Product
import E2eeProxy.Lib.Groups
import E2eeProxy.Mlkem.Compress
import E2eeProxy.Mlkem.Message
import E2eeProxy.Mlkem.Noise
import E2eeProxy.Mlkem.Sampling
import E2eeProxy.Mlkem.Indcpa
import E2eeProxy.Mlkem.Decryption
import E2eeProxy.Lib.Sponge
import E2eeProxy.Mlkem.Fips202
import E2eeProxy.Mlkem.Kem
import E2eeProxy.Mlkem.Blobs
import E2eeProxy.Mlkem.Keccak
import E2eeProxy.HttpBody
import E2eeProxy.PlainBody
import E2eeProxy.SseTransport
