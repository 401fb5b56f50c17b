import Ciphra.Foundations.Bytes
import Ciphra.Foundations.OrdMap
import Ciphra.Foundations.Ieee
import Ciphra.Foundations.Query
import Ciphra.Foundations.Remainder
import Ciphra.Foundations.Run
import Ciphra.Storage.Record
import Ciphra.Storage.Wal
import Ciphra.Storage.Checksum
import Ciphra.Storage.Faults
import Ciphra.Sql.Ast
import Ciphra.Sql.Lexer
import Ciphra.Sql.Parser
import Ciphra.Sql.Parsed
import Ciphra.Sql.Printed
import Ciphra.Engine.Value
import Ciphra.Engine.Codec
import Ciphra.Engine.Cursor
import Ciphra.Engine.Crypto
import Ciphra.Engine.Expr
import Ciphra.Engine.Plan
import Ciphra.Engine.Store
import Ciphra.Engine.Engine
import Ciphra.Engine.Writes
import Ciphra.Engine.Session
import Ciphra.Engine.Advisor
import Ciphra.Engine.Reach
import Ciphra.Engine.Audit
import Ciphra.Engine.FailedCommit
import Ciphra.Foundations.Patch
import Ciphra.Foundations.Merkle
import Ciphra.Engine.Inclusion
import Ciphra.Engine.Layout
import Ciphra.Net.Channel
import Ciphra.Net.Wire
import Ciphra.Net.Remote
import Ciphra.Net.Replication
import Ciphra.Net.Connection
import Ciphra.Net.Followers
import Ciphra.Engine.Records
import Ciphra.Engine.Tamper
import Ciphra.Engine.Backup
import Ciphra.Engine.Restore
import Ciphra.Foundations.Tracking
import Ciphra.Foundations.Transform
import Ciphra.Foundations.Butterfly
import Ciphra.Foundations.Packing
import Ciphra.Foundations.Parsing
import Ciphra.Engine.Tables
import Ciphra.Engine.Mutations
import Ciphra.Engine.Rows
import Ciphra.Engine.Updates
import Ciphra.Engine.Definitions
import Ciphra.Engine.Rebuild
import Ciphra.Engine.Catalog
import Ciphra.Engine.Runs
import Ciphra.Engine.Indexes
import Ciphra.Engine.Transparency
import Ciphra.Engine.Relational
import Ciphra.Engine.Refinement
import Ciphra.Engine.Aggregate
import Ciphra.Foundations.Ordering
import Ciphra.Engine.Grouping
import Ciphra.Engine.Select
import Ciphra.Engine.Order
import Ciphra.Foundations.Arrays
import Ciphra.Foundations.Blocks
import Ciphra.Primitives.Sha256
import Ciphra.Primitives.Blake2b
import Ciphra.Primitives.Hmac
import Ciphra.Primitives.Keccak
import Ciphra.Primitives.KeccakSponge
import Ciphra.Foundations.Words
import Ciphra.Foundations.Limbs
import Ciphra.Primitives.Sponge
import Ciphra.Primitives.Lattice
import Ciphra.Primitives.MlKem
import Ciphra.Primitives.MlKemRing
import Ciphra.Primitives.MlKemCorrect
import Ciphra.Primitives.MlKemProduct
import Ciphra.Primitives.MlDsa
import Ciphra.Primitives.MlDsaRing
import Ciphra.Primitives.Aead
import Ciphra.Primitives.Poly1305
import Ciphra.Primitives.MlDsaRounding
import Ciphra.Primitives.MlDsaSampling
import Ciphra.Primitives.MlDsaHint
import Ciphra.Primitives.MlDsaCodec
import Ciphra.Primitives.MlDsaCorrect
import Ciphra.Primitives.X25519
import Ciphra.Primitives.Field25519
import Ciphra.Primitives.Curve25519
import Ciphra.Foundations.Montgomery
import Ciphra.Foundations.Primality
import Ciphra.Primitives.DiffieHellman
import Ciphra.Net.Handshake
import Ciphra.Net.Established
import Ciphra.Foundations.Json
import Ciphra.Ffi.Results
import Ciphra.Foundations.Text
import Ciphra.Sql.CheckedLexer
import Ciphra.Sql.CheckedParser
import Ciphra.Foundations.Interleaving
import Ciphra.Primitives.Argon2
