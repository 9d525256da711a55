import FFmpeg.Common.Bytes
import FFmpeg.Common.Overwrite
import FFmpeg.Libavutil.Error
import FFmpeg.Common.Run
import FFmpeg.Libavutil.Mathematics
import FFmpeg.Libavformat.RtmpPkt
import FFmpeg.Libavformat.RtmpPktChunk
import FFmpeg.Libavformat.RtmpPktSync
import FFmpeg.Libavformat.RtmpPktCost
import FFmpeg.Libavformat.RtmpPktRoundTrip
import FFmpeg.Libavformat.RtmpPktInterleave
import FFmpeg.Libavformat.MuxPktFields
import FFmpeg.Common.File
import FFmpeg.Libavformat.Aviobuf
import FFmpeg.Libavformat.DynBuf
import FFmpeg.Libavformat.AviobufRead
import FFmpeg.Libavutil.Tree
import FFmpeg.Libavformat.Cache
import FFmpeg.Libavformat.CacheTransparent
import FFmpeg.Libavformat.Srtp
import FFmpeg.Libavformat.SrtpRoundTrip
import FFmpeg.Common.LinkedList
import FFmpeg.Libavformat.MuxInterleave
import FFmpeg.Libavformat.MuxInterleaveSorted
import FFmpeg.Common.Serial
import FFmpeg.Libavformat.RtpDec
import FFmpeg.Libavformat.RtpDecOrder
import FFmpeg.Common.Ring
import FFmpeg.Libavutil.Mem
import FFmpeg.Libavutil.Fifo
import FFmpeg.Libavutil.FifoQueue
import FFmpeg.Libavutil.TreeBalanced
import FFmpeg.Libavutil.TreeNodes
import FFmpeg.Libavutil.MathematicsExact
import FFmpeg.Common.Assoc
import FFmpeg.Libavutil.Dict
import FFmpeg.Libavutil.AvString
import FFmpeg.Libavutil.Bprint
import FFmpeg.Libavutil.BprintConcat
import FFmpeg.Libavutil.BprintEscape
import FFmpeg.Libavutil.DictString
import FFmpeg.Libavutil.EncryptionInfo
import FFmpeg.Libavutil.EncryptionInfoSideData
import FFmpeg.Common.CondVar
import FFmpeg.Libavutil.ThreadMessage
import FFmpeg.Libavutil.ThreadMessageQueue
import FFmpeg.Libavutil.BufferPool
import FFmpeg.Libavutil.BufferPoolOwnership
import FFmpeg.Common.GaloisByte
import FFmpeg.Common.Fips197
import FFmpeg.Libavutil.Aes
import FFmpeg.Libavutil.AesTables
import FFmpeg.Libavutil.AesRounds
import FFmpeg.Libavutil.AesKeys
import FFmpeg.Common.BlockMode
import FFmpeg.Libavutil.AesFips197
import FFmpeg.Libavformat.Avc
import FFmpeg.Libavformat.AviobufWrite
import FFmpeg.Libavformat.AvcNalUnits
import FFmpeg.Common.KeyStream
import FFmpeg.Libavutil.AesCtr
import FFmpeg.Common.Bits
import FFmpeg.Libavcodec.PutBits
import FFmpeg.Libavcodec.GetBits
import FFmpeg.Libavcodec.PutBitsStream
import FFmpeg.Libavcodec.PutGetBits
import FFmpeg.Common.Cells
import FFmpeg.Libavutil.Buffer
import FFmpeg.Libavutil.BufferValues
import FFmpeg.Common.Planes
import FFmpeg.Libavutil.AudioFifo
import FFmpeg.Libavutil.AudioFifoQueue
import FFmpeg.Libavformat.AviobufSeekback
import FFmpeg.Libavformat.IndexEntries
import FFmpeg.Libavformat.IndexEntriesSorted
import FFmpeg.Libavformat.GenSearch
import FFmpeg.Libavcodec.CachedGetBits
import FFmpeg.Libavcodec.CachedGetBitsAgree
import FFmpeg.Libavcodec.RangeCoder
import FFmpeg.Libavcodec.RangeCoderRoundTrip
import FFmpeg.Libavcodec.Ffv1Symbol
import FFmpeg.Libavformat.RtpEncH264
import FFmpeg.Libavformat.RtpDecH264
import FFmpeg.Libavformat.RtpEncH264Groups
import FFmpeg.Libavformat.RtpH264RoundTrip
import FFmpeg.Libavutil.Crc
import FFmpeg.Libavformat.Nut
import FFmpeg.Libavformat.NutPacket
import FFmpeg.Libavformat.NutIndex
import FFmpeg.Libavformat.NutIndexRuns
import FFmpeg.Libavformat.NutIndexRoundTrip
import FFmpeg.Libavformat.NutFrameCode
import FFmpeg.Libavformat.NutFrameTable
import FFmpeg.Libavformat.NutHeader
import FFmpeg.Libavformat.NutHeaderRuns
import FFmpeg.Libavformat.NutHeaderTable
import FFmpeg.Libavformat.NutHeaderRoundTrip
import FFmpeg.Libavfilter.FrameQueue
import FFmpeg.Libavfilter.FrameQueueFifo
import FFmpeg.Libavcodec.Parser
import FFmpeg.Libavcodec.ParserFrames
import FFmpeg.Libavcodec.AudioFrameQueue
import FFmpeg.Libavcodec.AudioFrameQueuePts
import FFmpeg.Libavcodec.PacketSideData
import FFmpeg.Libavcodec.PacketSideDataSplit
import FFmpeg.Libavutil.AesCbc
import FFmpeg.Libavformat.Crypto
import FFmpeg.Libavformat.CryptoRead
import FFmpeg.Libavformat.CryptoWrite
import FFmpeg.Libavformat.CryptoSeek
import FFmpeg.Libavcodec.Packet
import FFmpeg.Libavcodec.PacketValues
import FFmpeg.Libavcodec.PacketResize
import FFmpeg.Libavcodec.PacketRuns
import FFmpeg.Common.Emits
import FFmpeg.Libavfilter.FrameSync
import FFmpeg.Libavfilter.FrameSyncTracks
import FFmpeg.Libavfilter.FrameSyncFollows
import FFmpeg.Libavfilter.FrameSyncTurns
import FFmpeg.Libavfilter.FrameSyncSchedules
import FFmpeg.Libavformat.RtpHevcFragments
import FFmpeg.Libavformat.Concat
import FFmpeg.Libavformat.ConcatFile
import FFmpeg.Common.ZeroLanes
import FFmpeg.Libavcodec.H2645Parse
import FFmpeg.Libavcodec.H2645Rbsp
import FFmpeg.Libavcodec.CbsH2645
import FFmpeg.Libavcodec.CbsSliceData
import FFmpeg.Libavfilter.Formats
import FFmpeg.Libavfilter.FormatsMerge
import FFmpeg.Libavcodec.Golomb
import FFmpeg.Libavcodec.GolombRoundTrip
import FFmpeg.Libavcodec.GolombRice
import FFmpeg.Libavcodec.FlacLpc
import FFmpeg.Libavcodec.FlacLpcRestore
import FFmpeg.Libavformat.MpegTs
import FFmpeg.Libavformat.MpegTsSections
import FFmpeg.Libavformat.MpegTsPackets
import FFmpeg.Libavformat.MpegTsWrite
import FFmpeg.Common.Neighbours
import FFmpeg.Libavutil.Times
import FFmpeg.Libavutil.Rational
import FFmpeg.Common.RoundedGrid
import FFmpeg.Libavutil.AddStable
import FFmpeg.Libavutil.RescaleDelta
import FFmpeg.Common.Binary32
import FFmpeg.Libavutil.Q2IntFloat
import FFmpeg.Common.Calendar
import FFmpeg.Libavutil.ParseUtils
import FFmpeg.Libavutil.Timegm
import FFmpeg.Libavutil.ParseDurationReads
import FFmpeg.Libavutil.ParseDurationExact
import FFmpeg.Libavcodec.PacketDictionary
import FFmpeg.Common.BitSlots
import FFmpeg.Libavcodec.Vlc
import FFmpeg.Libavcodec.VlcWords
import FFmpeg.Libavcodec.VlcBuild
import FFmpeg.Libavcodec.VlcPairs
import FFmpeg.Libavcodec.VlcAmbiguous
import FFmpeg.Libavcodec.VlcBuilds
import FFmpeg.Libavcodec.VlcRefuses
import FFmpeg.Libavutil.NearestQ
import FFmpeg.Common.Limbs
import FFmpeg.Libavutil.Integer
import FFmpeg.Libavutil.IntegerExact
import FFmpeg.Libavutil.IntegerDivision
import FFmpeg.Common.BitPolynomial
import FFmpeg.Libavutil.CrcDivision
import FFmpeg.Libavutil.Base64
import FFmpeg.Libavutil.Base64RoundTrip
import FFmpeg.Libavutil.BprintTokens
import FFmpeg.Libavutil.Utf8
import FFmpeg.Libavutil.Utf8Exact
import FFmpeg.Libavutil.Timecode
import FFmpeg.Libavutil.TimecodeDropFrame
import FFmpeg.Libavutil.TimecodeSmpte
import FFmpeg.Common.Dyadic
import FFmpeg.Libavutil.Softfloat
import FFmpeg.Libavutil.SoftfloatArith
import FFmpeg.Libavformat.AvioSource
import FFmpeg.Libavformat.Ebml
import FFmpeg.Libavformat.EbmlRoundTrip
import FFmpeg.Libavformat.MatroskaLaces
import FFmpeg.Libavformat.MatroskaLaceSizes
import FFmpeg.Libavformat.Subtitles
import FFmpeg.Libavformat.SubtitlesReader
import FFmpeg.Libavformat.SubtitlesChunks
import FFmpeg.Libavformat.SubtitlesLines
import FFmpeg.Libavformat.SubtitlesLineRuns
import FFmpeg.Common.SortingWindow
import FFmpeg.Libavformat.PtsReorder
import FFmpeg.Libavformat.RtpStatistics
import FFmpeg.Libavcodec.Rle
import FFmpeg.Libavutil.CrcErrors
import FFmpeg.Libavutil.TreeQueries
