import Unegg.Run
import Unegg.Bytes
import Unegg.Error
import Unegg.Cursor
import Unegg.Encoding
import Unegg.Archive
import Unegg.Archive.Bounds
import Unegg.Archive.Wire
import Unegg.Archive.Roundtrip
import Unegg.Archive.Ahead
import Unegg.Archive.Order
import Unegg.Archive.Overstated
import Unegg.Archive.EncryptLength
import Unegg.Archive.Relative
import Unegg.Archive.Passes
import Unegg.Archive.Positions
import Unegg.Coder
import Unegg.Coder.Streams
import Unegg.Coder.Failures
import Unegg.Coder.Handed
import Unegg.Coder.Lockstep
import Unegg.Coder.Logged
import Unegg.Coder.Bounded
import Unegg.Coder.Accepts
import Unegg.Crc32
import Unegg.Mealy
import Unegg.Crypto
import Unegg.Crates
import Unegg.Ctr
import Unegg.AesCtr
import Unegg.Lea
import Unegg.Lea.Permutation
import Unegg.Decryptor
import Unegg.Decryptor.Calls
import Unegg.Decryptor.Lock
import Unegg.Crypto.Pkzip
import Unegg.Decompress
import Unegg.Decompress.Checksum
import Unegg.Decompress.Deflate
import Unegg.Decompress.Encode
import Unegg.Path
import Unegg.Effects
import Unegg.Effects.Made
import Unegg.Effects.Left
import Unegg.Effects.Bytewise
import Unegg.SolidSink
import Unegg.Tiling
import Unegg.SolidSink.Tilings
import Unegg.SolidSink.Complete
import Unegg.SolidSink.Steps
import Unegg.Extract
import Unegg.SolidSink.Lockstep
import Unegg.SolidSink.Leading
import Unegg.SolidSink.Together
import Unegg.SolidSink.Split
import Unegg.SolidSink.Iterations
import Unegg.Extract.Selection
import Unegg.Extract.Solid
import Unegg.Extract.Entry
import Unegg.Extract.Accepted
import Unegg.Extract.Containment
import Unegg.Extract.Authenticated
import Unegg.Extract.BrokenPipe
import Unegg.Extract.Alignment
import Unegg.Extract.Codec
import Unegg.Extract.SolidMethod
import Unegg.Extract.Determined
import Unegg.Extract.Delivered
import Unegg.Extract.SolidDelivered
import Unegg.Extract.Restriction
import Unegg.Extract.PipeMode
import Unegg.Extract.Unverified
import Unegg.Extract.Readable
import Unegg.Extract.SolidReadable
import Unegg.Writer
import Unegg.Writer.Restored
import Unegg.Writer.Roundtrip
import Unegg.Writer.Solid
import Unegg.Gregorian
import Unegg.Filetime
import Unegg.Refinement
import Unegg.Intervals
import Unegg.Volume
import Unegg.Volume.Refines
import Unegg.Volume.Open
import Unegg.Volume.PrefixScan
import Unegg.Volume.Chain
import Unegg.Reader
import Unegg.Reader.Follows
import Unegg.Volume.Reader
import Unegg.Volume.Archive
import Unegg.Volume.Split
import Unegg.Cli
import Unegg.Cli.Spellings
import Unegg.Coder.Settles
import Unegg.Decompress.Settles
import Unegg.SolidSink.Settles
import Unegg.Extract.Settles
import Unegg.Listing
import Unegg.Main
import Unegg.Main.Touched
import Unegg.Main.Prompted
import Unegg.Main.Restores
import Unegg.Main.Returns
import Unegg.Extract.Extractable
import Unegg.Main.Status
import Unegg.Extract.Announced
import Unegg.Main.Listed
import Unegg.Crc32.Burst
import Unegg.Extract.Burst
