import UBoot.Circbuf
import UBoot.Cli.History
import UBoot.Cli.Readline
import UBoot.Cli.Session
import UBoot.Cli.Simple
import UBoot.Dfu.Protocol
import UBoot.Dfu.Session
import UBoot.Dfu.Upload
import UBoot.Dos.Numbered
import UBoot.Env.Export.Restored
import UBoot.Env.Flags.Agree
import UBoot.Env.Flags.IpAddr
import UBoot.Env.Flags.Lookup
import UBoot.Env.Fw.Flash
import UBoot.Env.Fw.FlashBlocks
import UBoot.Env.Fw.FlashRange
import UBoot.Env.Fw.FlashSound
import UBoot.Env.Fw.Setenv
import UBoot.Env.Fw.Shared
import UBoot.Env.Fw.Write
import UBoot.Env.Mmc.Saved
import UBoot.Env.Nand
import UBoot.Ext4.Allocation
import UBoot.Ext4.Bitmap
import UBoot.Ext4.Dentries
import UBoot.Ext4.ExtentTrees
import UBoot.Ext4.Extents
import UBoot.Ext4.Groups
import UBoot.Ext4.InodeRight
import UBoot.Ext4.Inodes
import UBoot.Ext4.JournalScan
import UBoot.Ext4.NewBlock
import UBoot.Ext4.ParentDentry
import UBoot.Ext4.ParentDentryExact
import UBoot.Ext4.ReadFile
import UBoot.Ext4.ReadFileExact
import UBoot.Ext4.Removal
import UBoot.Ext4.RoundTrip
import UBoot.Fastboot.Authenticated
import UBoot.Fastboot.BootaMemory
import UBoot.Fastboot.Contiguous
import UBoot.Fastboot.Dispatch
import UBoot.Fastboot.ParseEnv
import UBoot.Fastboot.RepeatExact
import UBoot.Fastboot.SaveenvToPtn
import UBoot.Fastboot.WriteToPtn
import UBoot.Fat.Basic
import UBoot.Fat.Cluster
import UBoot.Fat.Contents
import UBoot.Fat.Free
import UBoot.Fat.Table
import UBoot.Fit.Compared
import UBoot.Fit.FindCompat
import UBoot.Fit.Hashed
import UBoot.Fit.Required
import UBoot.Gpt.ByName
import UBoot.Gpt.Placed
import UBoot.Gpt.UuidStrings
import UBoot.HashTable.Capacity
import UBoot.HashTable.Failed
import UBoot.HashTable.Match
import UBoot.HashTable.Probes
import UBoot.HashTable.Refinement
import UBoot.HashTable.RoundTrip
import UBoot.HashTable.Selected
import UBoot.HashTable.Text
import UBoot.Hwconfig
import UBoot.Image.Move
import UBoot.Image.Multi
import UBoot.Imximage.Regular
import UBoot.Kermit.Download
import UBoot.Lmb.Accounted
import UBoot.Lmb.AllocBase
import UBoot.Lmb.Membership
import UBoot.Lmb.Split
import UBoot.Mtdparts.Buffers
import UBoot.Mtdparts.Current
import UBoot.Mtdparts.Reachable
import UBoot.Mx6.LcdClock
import UBoot.Mx6.LcdClockExact
import UBoot.Nand.BlockMark
import UBoot.Nand.BlockMarkPlace
import UBoot.Nand.Erase
import UBoot.Nand.SkipBad
import UBoot.Net.Checksum
import UBoot.Net.Defrag.Reassembly
import UBoot.Net.Defrag.Safety
import UBoot.Net.Dhcp
import UBoot.Net.LinkLocal
import UBoot.Net.Nfs.Accesses
import UBoot.Net.Nfs.Download
import UBoot.Net.Receive
import UBoot.Net.Tftp.Exchange
import UBoot.Net.Tftp.Stored
import UBoot.Rsa.Accumulators
import UBoot.Rsa.Required
import UBoot.Rtc.Date
import UBoot.SRecord.Decode
import UBoot.SRecord.Load
import UBoot.SRecord.RoundTrip
import UBoot.SRecord.Save
import UBoot.Setexpr.Gsub
import UBoot.Setexpr.Regex
import UBoot.Setexpr.Substitute
import UBoot.Sparse.Expansion
import UBoot.Sparse.Inside
import UBoot.Sparse.Loop
import UBoot.Sparse.Response
import UBoot.Sparse.Round
import UBoot.Verification.ByteBits
import UBoot.Verification.Calendar
import UBoot.Verification.Exact
import UBoot.Verification.FirstBest
import UBoot.Verification.GoodBlocks
import UBoot.Verification.Move
import UBoot.Verification.Records
import UBoot.Verification.Ring
import UBoot.Verification.Windows
import UBoot.Gpt.Interrupted
