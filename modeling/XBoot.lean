import XBoot.AbortedWrites
import XBoot.BackingStore
import XBoot.BigEndian
import XBoot.BlockArrays
import XBoot.BlockDevices
import XBoot.BootHttp
import XBoot.BootTargets
import XBoot.BootUrls
import XBoot.CachePastEnd
import XBoot.CacheReads
import XBoot.CacheRecency
import XBoot.CachedStore
import XBoot.Capacities
import XBoot.ChainProbe
import XBoot.ClientIsolation
import XBoot.ClientLookup
import XBoot.ClientManager
import XBoot.CommandLedger
import XBoot.CommandWindow
import XBoot.Config
import XBoot.ContinuedLogins
import XBoot.Conversations
import XBoot.DamagedImages
import XBoot.DataInSequences
import XBoot.DhcpCodec
import XBoot.DhcpPacket
import XBoot.DhcpReplies
import XBoot.DhcpServer
import XBoot.DiskContents
import XBoot.DiskGeometry
import XBoot.DynamicVhd
import XBoot.FailedWrites
import XBoot.FirmwareBoots
import XBoot.GatheredWrites
import XBoot.ImageAddresses
import XBoot.ImageCommands
import XBoot.InterleavedTables
import XBoot.IpxeTexts
import XBoot.IscsiPdu
import XBoot.KeyedSorts
import XBoot.KeyedTables
import XBoot.ListSlices
import XBoot.LoginKeys
import XBoot.LruCaches
import XBoot.LunAddresses
import XBoot.Machines
import XBoot.NetworkBoots
import XBoot.NewestLayer
import XBoot.NumberedLayers
import XBoot.Numerals
import XBoot.OfferedAddresses
import XBoot.OpenedImages
import XBoot.PayloadBlocks
import XBoot.PduEncoding
import XBoot.PduFraming
import XBoot.PduReading
import XBoot.PlacedFields
import XBoot.PointReads
import XBoot.ProgramPools
import XBoot.RequestLedgers
import XBoot.Residuals
import XBoot.ResponseTags
import XBoot.Resumptions
import XBoot.ScsiTarget
import XBoot.SegmentLengths
import XBoot.SelfDescriptions
import XBoot.SequentialCalls
import XBoot.SerialNumbers
import XBoot.Session
import XBoot.SessionInvariant
import XBoot.SessionSteps
import XBoot.ShiftRegisters
import XBoot.SolicitedWrites
import XBoot.StatusNumbers
import XBoot.StreamReaders
import XBoot.TargetInstances
import XBoot.TargetRegistry
import XBoot.TextLines
import XBoot.TextSegments
import XBoot.TftpBlocks
import XBoot.TftpDownloads
import XBoot.TftpDuplicates
import XBoot.TftpFields
import XBoot.TftpOptions
import XBoot.TftpPacket
import XBoot.TftpPeers
import XBoot.TftpRequests
import XBoot.TftpRetries
import XBoot.TftpServer
import XBoot.TftpTurns
import XBoot.TransferLengths
import XBoot.Transport
import XBoot.UnitReads
import XBoot.UnitWalk
import XBoot.Utf8
import XBoot.VhdChain
import XBoot.VhdHistory
import XBoot.VhdIncrements
import XBoot.VhdRoundTrip
import XBoot.VhdWriter
import XBoot.Vhdx
import XBoot.VhdxHeaders
import XBoot.VhdxImages
import XBoot.Volume
import XBoot.VolumeFlatModel
import XBoot.VolumeInterleavings
