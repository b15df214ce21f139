import NvmfHdfs.Lib.Machine
import NvmfHdfs.Lib.Descriptor
import NvmfHdfs.Lib.Fread
import NvmfHdfs.Lib.Worklist
import NvmfHdfs.Lib.Tokens
import NvmfHdfs.Layout
import NvmfHdfs.Geometry
import NvmfHdfs.Bitmap
import NvmfHdfs.Path
import NvmfHdfs.Records
import NvmfHdfs.Rewrite.Model
import NvmfHdfs.Rewrite.Outcome
import NvmfHdfs.Rewrite.Mount
import NvmfHdfs.Rewrite.Cursor
import NvmfHdfs.Rewrite.Slots
import NvmfHdfs.Rewrite.Ownership
import NvmfHdfs.Rewrite.Coherence
import NvmfHdfs.Rewrite.Area
import NvmfHdfs.Rewrite.Remount
import NvmfHdfs.Rewrite.Length
import NvmfHdfs.Rewrite.Listing
import NvmfHdfs.Blocklist.Reader
import NvmfHdfs.Blocklist.Writer
import NvmfHdfs.Blocklist.RoundTrip
import NvmfHdfs.Areas
import NvmfHdfs.BitmapSet
import NvmfHdfs.Scan
import NvmfHdfs.Ltils.Model
import NvmfHdfs.Ltils.Outcome
import NvmfHdfs.Rewrite.Handles
import NvmfHdfs.Rewrite.Reopen
import NvmfHdfs.Ltils.Cursor
import NvmfHdfs.Ltils.Owner
import NvmfHdfs.Ltils.ReadBack
import NvmfHdfs.Blocklist.DataNode
import NvmfHdfs.Blocklist.BadBlock
import NvmfHdfs.Blocklist.SlotIds
import NvmfHdfs.Blocklist.Copy
import NvmfHdfs.Ltils.Bounds
import NvmfHdfs.Rewrite.Release
import NvmfHdfs.Rewrite.Observer
import NvmfHdfs.FullDevice
import NvmfHdfs.Rewrite.Transfer
import NvmfHdfs.Rewrite.FileStore
import NvmfHdfs.Blocklist.Access
import NvmfHdfs.Rewrite.Names
import NvmfHdfs.Blocklist.Metadata
import NvmfHdfs.Blocklist.Walk
import NvmfHdfs.Blocklist.Fsck
import NvmfHdfs.Rewrite.View
import NvmfHdfs.Ltils.Lifetime
import NvmfHdfs.Blocklist.Pipeline
import NvmfHdfs.Rewrite.CrashStore
import NvmfHdfs.Ltils.CrashStore
import NvmfHdfs.Rewrite.Served
import NvmfHdfs.Rewrite.RecordStore
import NvmfHdfs.Programs
import NvmfHdfs.Ltils.Capacity
